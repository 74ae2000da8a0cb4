/-! Variables and the supply of unused ones.

A variable is nothing but its identity. A computation that needs new variables
draws them in order from a `Supply`; decoding a variable reserves its identity.
Draws run on an unbounded supply, and `Fresh.bounded` cuts a whole computation
off when it went past the last identity that fits into 64 bits. -/

namespace LinearCalculus

structure Var where
  id : Nat
  deriving DecidableEq, Repr

def Var.text (v : Var) : String := "x" ++ toString v.id

def Var.insert (v : Var) : List Var → List Var
  | [] => [v]
  | w :: rest =>
    if v.id < w.id then v :: w :: rest
    else if v = w then w :: rest
    else w :: Var.insert v rest

def Var.sort (vars : List Var) : List Var := vars.foldr Var.insert []

/-- All identities from `next` on are unused. -/
structure Supply where
  next : Nat
  deriving DecidableEq, Repr

namespace Supply

/-- No variable is ever drawn with this identity, or with a larger one. -/
def capacity : Nat := 0xffffffffffffffff

def empty : Supply := ⟨0⟩

def reserve (s : Supply) (v : Var) : Supply := ⟨max s.next (v.id + 1)⟩

end Supply

abbrev Fresh := StateM Supply

def fresh : Fresh Var := fun s => (⟨s.next⟩, ⟨s.next + 1⟩)

/-- Run a computation on the identities below `capacity`. It has no result if it
needed more of them, and then the supply is used up. -/
def Fresh.bounded {α : Type} (x : Fresh α) (s : Supply) : Option α × Supply :=
  let (a, t) := x s
  if t.next ≤ Supply.capacity then (some a, t) else (none, ⟨Supply.capacity⟩)

section

variable {α : Type} {x : Fresh α} {s : Supply}

theorem Fresh.bounded_of_le (fits : (x s).2.next ≤ Supply.capacity) :
    bounded x s = (some (x s).1, (x s).2) :=
  if_pos fits

theorem Fresh.bounded_of_lt (beyond : Supply.capacity < (x s).2.next) :
    bounded x s = (none, ⟨Supply.capacity⟩) :=
  if_neg (Nat.not_le_of_lt beyond)

end

end LinearCalculus
