import FrontEnd.Ident

/-!
# Nodes by number, and scopes

A scope maps names to nodes in the order in which the names came.  A name that is
present is never bound again, and keeps the spelling it came with.
-/

namespace FrontEnd

/-- The number of a node in its store, counted from zero. -/
structure NodeId where
  index : Nat
deriving DecidableEq, Inhabited

/-- The text of a node number; texts count from one. -/
def NodeId.text (id : NodeId) : String := "NodeId(" ++ toString (id.index + 1) ++ ")"

/-- Names with their nodes, in insertion order. -/
structure Scope where
  entries : List (Ident × NodeId)
deriving DecidableEq, Inhabited

namespace Scope

/-- The scope without names. -/
def empty : Scope := ⟨[]⟩

/-- The node of a name. -/
def lookup (s : Scope) (name : Ident) : Option NodeId :=
  (s.entries.find? fun e => e.1.same name).map Prod.snd

/-- Whether a name is present. -/
def contains (s : Scope) (name : Ident) : Bool := (s.lookup name).isSome

/-- The place of a name in insertion order. -/
def position (s : Scope) (name : Ident) : Option Nat :=
  s.entries.findIdx? fun e => e.1.same name

/-- The nodes in insertion order. -/
def nodes (s : Scope) : List NodeId := s.entries.map Prod.snd

/-- The number of names. -/
def size (s : Scope) : Nat := s.entries.length

/-- Append an entry, whether or not its name is present. -/
def append (s : Scope) (name : Ident) (node : NodeId) : Scope := ⟨s.entries ++ [(name, node)]⟩

/-- Bind a new name; for a name that is present, the node it already has. -/
def insert (s : Scope) (name : Ident) (node : NodeId) : Except NodeId Scope :=
  match s.lookup name with
  | some existing => .error existing
  | none => .ok (s.append name node)

/-- The scope of some entries; of two with one name the first counts. -/
def ofEntries (entries : List (Ident × NodeId)) : Scope :=
  entries.foldl (fun s e => if s.contains e.1 then s else s.append e.1 e.2) empty

/-- Take a name out, keeping the order of the others. -/
def erase (s : Scope) (name : Ident) : Scope :=
  ⟨s.entries.eraseP fun e => e.1.same name⟩

@[simp] theorem lookup_empty (name : Ident) : empty.lookup name = none := rfl

@[simp] theorem nodes_empty : empty.nodes = [] := rfl

@[simp] theorem nodes_append (s : Scope) (name : Ident) (node : NodeId) :
    (s.append name node).nodes = s.nodes ++ [node] := by
  simp [append, nodes]

/-- Insertion succeeds exactly on new names, and then appends. -/
theorem insert_eq_ok_iff {s t : Scope} {name : Ident} {node : NodeId} :
    s.insert name node = .ok t ↔ s.lookup name = none ∧ t = s.append name node := by
  unfold insert
  cases s.lookup name <;> simp [eq_comm]

end Scope

end FrontEnd
