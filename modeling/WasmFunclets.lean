import WasmFunclets.Main
import WasmFunclets.Proofs.Aligned.Passing
import WasmFunclets.Proofs.Meaning.Lockstep
import WasmFunclets.Proofs.Aligned.Records
import WasmFunclets.Proofs.Outlined
import WasmFunclets.Proofs.Typing.Weakening
import WasmFunclets.Proofs.Encoding.Groups
import WasmFunclets.Proofs.Prefixes
import WasmFunclets.Proofs.Cutoff
import WasmFunclets.Proofs.Exchange
import WasmFunclets.Proofs.Discipline
import WasmFunclets.Proofs.Tables
import WasmFunclets.Proofs.Targets
import WasmFunclets.Proofs.Typing.Brackets
import WasmFunclets.Proofs.Ssa.Arguments
import WasmFunclets.Proofs.Ssa.Clients
import WasmFunclets.Proofs.Encoding.Declarations
import WasmFunclets.Proofs.Inference
import WasmFunclets.Proofs.Ssa.Chains
import WasmFunclets.Proofs.Ssa.Additions
import WasmFunclets.Proofs.Ssa.Climbs
import WasmFunclets.Proofs.Ssa.Terminates
