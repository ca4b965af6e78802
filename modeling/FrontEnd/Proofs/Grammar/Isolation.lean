import FrontEnd.Proofs.Grammar.Rendering
import FrontEnd.Proofs.Tree.Shift

/-!
# Parsing on top of what is there

Parsing adds to a store and to notices.  It neither looks at nor changes what was there before,
which matters only by how much there was: the numbers of new nodes and notices go up by that.  So
parsing on any ground is parsing on no ground, with the numbers shifted.

Putting a store on top of the ground, and notices behind those of the ground, is a rendering that
keeps all names.

## Main definitions

* `Ground`: what was there before.
* `Ground.rendering`, `Ground.parsed`: how trees and what parsing leaves look on it.

## Main statements

* `parseModule_on_ground`: parsing on a ground is parsing without it, shifted.
-/

namespace FrontEnd

/-! ## Names that stay -/

theorem Token.rename_id (t : Token) : t.rename id = t := by cases t <;> rfl

theorem Diagnostic.rename_id (d : Diagnostic) : d.rename id = d := by cases d <;> rfl

theorem Notice.rename_id (n : Notice) : n.rename id = n := by
  rw [rename, Diagnostic.rename_id]

theorem Event.rename_id (event : Event) : event.rename id = event := by
  cases event with
  | noticed diagnostic span => exact congrArg (noticed · span) diagnostic.rename_id
  | _ => rfl

namespace Grammar

/-! ## Grounds -/

/-- The nodes and notices that are there before parsing starts. -/
structure Ground where
  store : Store
  notices : Notices

namespace Ground

variable (g : Ground)

/-- What is on top of the ground renders what is there without it. -/
def rendering : Rendering where
  toRelabelling := .shift g.store.size g.notices.size
  store s := s.onto g.store g.notices.size
  notices all := g.notices ++ all
  get?_store s id := by
    rw [Node.relabel_shift]
    exact s.get?_onto_shift g.store g.notices.size id
  modify_store s id f h hfh := by
    rw [Node.relabel_shift] at hfh
    exact s.modify_onto g.store g.notices.size id hfh
  fresh_store s := s.fresh_onto g.store g.notices.size
  push_store s c span := by
    rw [Construct.relabel_shift]
    exact s.push_onto g.store g.notices.size c span
  size_notices all := Array.size_append.trans (Nat.add_comm _ _)
  push_notices all n := by
    rw [show n.rename (Relabelling.shift _ _).name = n from n.rename_id, Array.push_append]

/-- What parsing leaves behind on the ground. -/
def parsed (parsed : Parsed) : Parsed where
  result := match parsed.result with
    | .ok root => .ok (root.shift g.store.size)
    | .error m => .error ⟨m.notice + g.notices.size⟩
  store := parsed.store.onto g.store g.notices.size
  notices := g.notices ++ parsed.notices
  events := parsed.events

/-- Parsing on the ground is parsing with nothing there, put on the ground. -/
theorem parseModule_eq (tokens : List (Located Token)) :
    parseModule tokens g.store g.notices = (parseModule tokens .empty #[]).map g.parsed := by
  have htokens : tokens.map g.rendering.token = tokens := by
    refine List.map_id'' (fun t => ?_) tokens
    exact congrArg (Located.mk · t.span) t.value.rename_id
  have hparsed : g.rendering.parsed = g.parsed := by
    funext p
    have hevents : p.events.map (Event.rename id) = p.events := by
      rw [funext Event.rename_id]
      exact Array.map_id' p.events
    exact congrArg (Parsed.mk (g.parsed p).result (g.parsed p).store (g.parsed p).notices) hevents
  have hground := parseModule_rendering g.rendering tokens .empty #[]
  rw [htokens, hparsed] at hground
  rw [← hground]
  simp [rendering]

end Ground

/-- **Parsing is isolated.**  The nodes and notices that were there stay as they were.  What is
added and returned is what parsing adds and returns where nothing was there, with the numbers of
nodes and notices shifted by how many there were. -/
theorem parseModule_on_ground (tokens : List (Located Token)) (store : Store) (notices : Notices)
    (heof : (tokens.map Located.value).getLast? = some .eof) :
    ∃ alone whole, parseModule tokens .empty #[] = .ok alone ∧
      parseModule tokens store notices = .ok whole ∧
      (∀ id : NodeId, id.index < store.size → whole.store.get? id = store.get? id) ∧
      (∀ i, i < notices.size → whole.notices[i]? = notices[i]?) ∧
      whole.store.size = alone.store.size + store.size ∧
      (∀ id : NodeId, whole.store.get? (id.shift store.size) =
        (alone.store.get? id).map (Node.shift store.size notices.size)) ∧
      whole.notices.size = alone.notices.size + notices.size ∧
      (∀ i, whole.notices[i + notices.size]? = alone.notices[i]?) ∧
      (whole.result = match alone.result with
        | .ok root => .ok (root.shift store.size)
        | .error m => .error ⟨m.notice + notices.size⟩) ∧
      whole.events = alone.events := by
  obtain ⟨cursor, hcursor⟩ := exists_ofTokens heof
  let g : Ground := ⟨store, notices⟩
  let alone : Parsed := .ofResult (outcome unit none (.start cursor .empty #[]))
  have hwhole : parseModule tokens store notices = .ok (g.parsed alone) := by
    rw [g.parseModule_eq, Grammar.parseModule_eq hcursor]
    rfl
  refine ⟨alone, g.parsed alone, Grammar.parseModule_eq hcursor, hwhole, ?_, ?_, ?_, ?_, ?_, ?_, rfl,
    rfl⟩
  · exact fun id hid => alone.store.get?_onto_of_lt store notices.size hid
  · exact fun i hi => Array.getElem?_append_left hi
  · exact alone.store.size_onto store notices.size
  · exact fun id => alone.store.get?_onto_shift store notices.size id
  · exact Array.size_append.trans (Nat.add_comm _ _)
  · intro i
    change (notices ++ alone.notices)[i + notices.size]? = _
    rw [Array.getElem?_append_right (Nat.le_add_left _ _), Nat.add_sub_cancel]

/-- A module with a struct, parsed on top of a node and a notice. -/
theorem parseModule_on_ground_of_marker :
    let tokens : List (Located Token) := [.keyword .module, .ident ⟨"m"⟩, .symbol .openCurly,
      .keyword .struct, .ident ⟨"s"⟩, .symbol .openCurly, .symbol .closeCurly, .symbol .closeCurly,
      .eof].map fun t => ⟨t, default⟩
    let marker : Node := ⟨.errorMarker 0, none, none⟩
    (tokens.map Located.value).getLast? = some .eof ∧
    ∃ alone whole, parseModule tokens .empty #[] = .ok alone ∧
      parseModule tokens ⟨#[marker]⟩ #[.of (.emptyModule ⟨"n"⟩) default] = .ok whole ∧
      whole.store.get? ⟨0⟩ = some marker ∧ whole.notices.size = 1 ∧
      whole.store.get? ⟨1⟩ = (alone.store.get? ⟨0⟩).map (Node.shift 1 1) ∧
      (alone.result = .ok ⟨0⟩ ∧ whole.result = .ok ⟨1⟩) := by
  intro tokens marker
  obtain ⟨alone, whole, halone, hwhole, hbelow, -, -, habove, hsize, -, hresult, -⟩ :=
    parseModule_on_ground tokens ⟨#[marker]⟩ #[.of (.emptyModule ⟨"n"⟩) default] rfl
  have hroot : alone.result = .ok ⟨0⟩ ∧ alone.notices.size = 0 := by
    cases halone
    exact ⟨rfl, rfl⟩
  rw [hroot.2] at hsize
  rw [hroot.1] at hresult
  exact ⟨rfl, alone, whole, halone, hwhole, hbelow ⟨0⟩ (Nat.zero_lt_one), hsize, habove ⟨0⟩,
    hroot.1, hresult⟩

end Grammar

end FrontEnd
