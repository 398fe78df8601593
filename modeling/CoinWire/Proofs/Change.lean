import Mathlib
import CoinWire.Error

/-!
# Changes of plain values

A change answers and gives the new value, or fails and leaves the value as it was. A question
answers and changes nothing. Values without caches are used in these two ways only, and there is
nothing to decode in them: they fail for want of a part, and for no other reason.
-/

namespace CoinWire

/-- A part of a value that is not there. -/
inductive Absence where
  | indexOutOfBounds (index length : Nat)
  | headerOnly

def Absence.error : Absence → CodecError
  | .indexOutOfBounds index length => .indexOutOfBounds index length
  | .headerOnly => .headerOnly

abbrev Question (V β : Type) := V → Except Absence β

abbrev Change (V β : Type) := V → Except Absence (β × V)

variable {V W β γ : Type}

/-- Asks the value at `index`, if there is one. -/
def Question.at? (index : Nat) (question : Question V β) : Question (List V) (Option β) :=
  fun values ↦
    match values[index]? with
    | none => .ok none
    | some v => some <$> question v

namespace Change

/-- A question, which changes nothing. -/
def ask (question : Question V β) : Change V β := fun v ↦
  (question v).map (·, v)

/-- Replaces the value and answers nothing. -/
def modify (f : V → V) : Change V Unit := fun v ↦ .ok ((), f v)

def map (f : β → γ) (change : Change V β) : Change V γ := fun v ↦
  (change v).map fun found ↦ (f found.1, found.2)

/-- Changes the part of a value that `part` shows and `put` puts back. -/
def onPart (part : V → W) (put : W → V → V) (change : Change W β) : Change V β := fun v ↦
  (change (part v)).map fun found ↦ (found.1, put found.2 v)

/-- Changes one value of a list; an index out of range is an error. -/
def onIndex (index : Nat) (change : Change V β) : Change (List V) β := fun values ↦
  match values[index]? with
  | none => .error (.indexOutOfBounds index values.length)
  | some v => (change v).map fun found ↦ (found.1, values.set index found.2)

/-- Takes one value out of a list. -/
def detach (index : Nat) : Change (List V) V := fun values ↦
  match values[index]? with
  | none => .error (.indexOutOfBounds index values.length)
  | some v => .ok (v, values.eraseIdx index)

end Change

end CoinWire
