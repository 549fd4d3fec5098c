import WasmFunclets.TypedStack

/-! Who uses a value, in a form that takes over a whole list at once. -/

namespace WasmFunclets.Ssa

/-- A list of ids that grows at its end, by one id or by another such list. -/
inductive UseList where
  | empty
  | push (front : UseList) (user : ValueId)
  | append (front back : UseList)
  deriving DecidableEq, Repr, Inhabited

namespace UseList

def followedBy : UseList → List ValueId → List ValueId
  | empty, rest => rest
  | push front user, rest => front.followedBy (user :: rest)
  | append front back, rest => front.followedBy (back.followedBy rest)

def toList (uses : UseList) : List ValueId := uses.followedBy []

theorem followedBy_eq (uses : UseList) (rest : List ValueId) :
    uses.followedBy rest = uses.toList ++ rest := by
  induction uses generalizing rest with
  | empty => rfl
  | push front user ih => simp [toList, followedBy, ih (user :: rest), ih [user]]
  | append front back ihFront ihBack =>
      calc
        front.followedBy (back.followedBy rest) = front.toList ++ (back.toList ++ rest) := by
          rw [ihFront, ihBack]
        _ = front.followedBy back.toList ++ rest := by rw [ihFront, List.append_assoc]

@[simp] theorem toList_empty : empty.toList = [] := rfl

@[simp] theorem toList_push (uses : UseList) (user : ValueId) :
    (uses.push user).toList = uses.toList ++ [user] := uses.followedBy_eq [user]

@[simp] theorem toList_append (front back : UseList) :
    (front.append back).toList = front.toList ++ back.toList := front.followedBy_eq back.toList

end UseList

end WasmFunclets.Ssa
