/-!
# Names

A name keeps the spelling it was written with.  Names are compared ignoring the
case of ASCII letters, and of no others: `foo` and `FOO` are one name, `é` and
`É` are two.
-/

namespace FrontEnd

/-- A name in its own spelling. -/
structure Ident where
  text : String
deriving DecidableEq, Inhabited

namespace Ident

/-- The characters of a name with ASCII letters lowered.  Two names are the same
name exactly when their keys agree. -/
def key (i : Ident) : List Char := i.text.toList.map Char.toLower

/-- Whether two spellings are the same name. -/
def same (i j : Ident) : Bool := i.key == j.key

/-- Spellings of one name share a hash. -/
instance : Hashable Ident := ⟨fun i => hash (String.ofList i.key)⟩

theorem same_iff {i j : Ident} : i.same j = true ↔ i.key = j.key := by simp [same]

@[simp] theorem same_refl (i : Ident) : i.same i = true := by simp [same]

theorem same_comm (i j : Ident) : i.same j = j.same i := by
  rw [Bool.eq_iff_iff, same_iff, same_iff]; exact eq_comm

theorem same_trans {i j k : Ident} (hij : i.same j = true) (hjk : j.same k = true) :
    i.same k = true :=
  same_iff.mpr ((same_iff.mp hij).trans (same_iff.mp hjk))

end Ident

end FrontEnd
