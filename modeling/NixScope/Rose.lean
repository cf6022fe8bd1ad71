namespace NixScope

/-- Ordered trees with labels of type `α` at the leaves and of type `β` at the branches. -/
inductive Rose (α β : Type)
  | leaf (label : α)
  | branch (label : β) (children : List (Rose α β))
  deriving Repr, Inhabited

namespace Rose

variable {α β γ δ : Type}

mutual

def leaves : Rose α β → List α
  | leaf a => [a]
  | branch _ ts => leavesOf ts

def leavesOf : List (Rose α β) → List α
  | [] => []
  | t :: ts => t.leaves ++ leavesOf ts

end

mutual

def map (f : α → γ) (g : β → δ) : Rose α β → Rose γ δ
  | leaf a => leaf (f a)
  | branch b ts => branch (g b) (mapAll f g ts)

def mapAll (f : α → γ) (g : β → δ) : List (Rose α β) → List (Rose γ δ)
  | [] => []
  | t :: ts => t.map f g :: mapAll f g ts

end

variable [DecidableEq α] [DecidableEq β]

mutual

def decEq : (s t : Rose α β) → Decidable (s = t)
  | leaf a, leaf b => if h : a = b then isTrue (h ▸ rfl) else isFalse fun e => h (leaf.inj e)
  | leaf _, branch _ _ => isFalse nofun
  | branch _ _, leaf _ => isFalse nofun
  | branch a as, branch b bs =>
    if h : a = b then
      match decEqAll as bs with
      | isTrue hs => isTrue (h ▸ hs ▸ rfl)
      | isFalse hs => isFalse fun e => hs (branch.inj e).2
    else isFalse fun e => h (branch.inj e).1

def decEqAll : (ss ts : List (Rose α β)) → Decidable (ss = ts)
  | [], [] => isTrue rfl
  | [], _ :: _ => isFalse nofun
  | _ :: _, [] => isFalse nofun
  | s :: ss, t :: ts =>
    match decEq s t with
    | isTrue h =>
      match decEqAll ss ts with
      | isTrue hs => isTrue (h ▸ hs ▸ rfl)
      | isFalse hs => isFalse fun e => hs (List.cons.inj e).2
    | isFalse h => isFalse fun e => h (List.cons.inj e).1

end

/-- Trees are compared with others that share their parts, so most comparisons end at the first
look. -/
instance : DecidableEq (Rose α β) := fun s t => withPtrEqDecEq s t fun _ => decEq s t

end Rose

end NixScope
