import FrontEnd.Proofs.Tree.Links
import FrontEnd.Proofs.Tree.Scopes

/-!
# Moving statements

The statements at the end of a block go to the end of another block, one after the other.  What
that makes of each node of the store can be said at once: `Move.node` gives it as a function of
the node alone, whether or not the two blocks are the same, and wherever they stand.

Splitting a block adds an empty one and moves statements into it.

## Main definitions

* `Move`: the statements of a block that stay and that go, and where they go.
* `Move.node`: what a move makes of a node.
* `Moves`: a store comes from another by a move.

## Main statements

* `moves_of_relocate`, `exists_relocate`: what `relocate` does, and that it does it.
* `moves_of_split`: what `split` does.
-/

namespace FrontEnd

/-- Statements that go from the end of a block to the end of another, or of the same. -/
structure Move where
  source : NodeId
  target : NodeId
  /-- The statements of the source that stay. -/
  kept : List NodeId
  /-- The statements of the source that go. -/
  moved : List NodeId

namespace Move

/-- The move of the statements of a block from a place on. -/
def cut (source target : NodeId) (statements : List NodeId) (start : Nat) : Move :=
  ⟨source, target, statements.take start, statements.drop start⟩

/-- What the scope of a block becomes when a declaration goes. -/
def scope (m : Move) (id : NodeId) (s : Scope) (e : Ident × NodeId) : Scope :=
  let left := if id = m.source then s.release e else s
  if id = m.target then left.enroll e else left

theorem scope_of_ne {m : Move} {id : NodeId} (hsource : id ≠ m.source) (htarget : id ≠ m.target) :
    m.scope id = fun s _ => s := by
  funext s e
  simp only [scope, if_neg hsource, if_neg htarget]

/-- A block with another scope; other constructs are as they are. -/
def rescoped (f : Scope → Scope) : Construct → Construct
  | .block b => .block ⟨b.statements, f b.scope⟩
  | c => c

/-- What the statements of a block become. -/
def statements (m : Move) (id : NodeId) (old : List NodeId) : List NodeId :=
  (if id = m.source then m.kept else old) ++ if id = m.target then m.moved else []

/-- What a construct becomes when statements that declare `entries` go. -/
def construct (m : Move) (entries : List (Ident × NodeId)) (id : NodeId) : Construct → Construct
  | .block b => .block ⟨m.statements id b.statements, entries.foldl (m.scope id) b.scope⟩
  | c => c

theorem kind_construct (m : Move) (entries : List (Ident × NodeId)) (id : NodeId) (c : Construct) :
    (m.construct entries id c).kind = c.kind := by
  cases c <;> rfl

/-- The parent of a node that had `old` as its parent. -/
def parent (m : Move) (id : NodeId) (old : Option NodeId) : Option NodeId :=
  if id ∈ m.moved then some m.target else old

/-- What a node becomes. -/
def node (m : Move) (entries : List (Ident × NodeId)) (id : NodeId) (n : Node) : Node :=
  ⟨m.construct entries id n.construct, m.parent id n.parent, n.span⟩

end Move

namespace Store

variable {s s' s₁ s₂ : Store} {id statement source target : NodeId} {b t : BlockNode}
  {c : Construct}

/-! ## What blocks declare -/

/-- The construct of a node that is put is the one that was put. -/
theorem construct?_put (s : Store) (id other : NodeId) (c : Construct) :
    (s.put id c).construct? other =
      if id = other then (s.construct? other).map fun _ => c else s.construct? other := by
  rw [construct?, get?_put, construct?]
  split
  · simp [Function.comp_def]
  · rfl

theorem declared?_of_construct? (h : s.construct? id = some c) (hc : c.kind ≠ .varDecl) :
    s.declared? id = none := by
  obtain ⟨⟨_, parent, span⟩, hget, rfl⟩ := Option.map_eq_some_iff.mp h
  rw [declared?, hget]
  dsimp only at hc ⊢
  split
  next heq =>
    cases heq
    exact absurd rfl hc
  next => rfl

/-- Other contents of a block or a module declare nothing. -/
theorem declared?_put {c' : Construct} (hc : s.construct? id = some c) (hkind : c.kind ≠ .varDecl)
    (hkind' : c'.kind ≠ .varDecl) (other : NodeId) :
    (s.put id c').declared? other = s.declared? other := by
  by_cases heq : id = other
  · subst heq
    have hput : (s.put id c').construct? id = some c' := by
      rw [construct?_put, if_pos rfl, hc]
      rfl
    rw [declared?_of_construct? hc hkind, declared?_of_construct? hput hkind']
  · exact declared?_congr (by rw [construct?_put, if_neg heq])

theorem declarations_congr {statements : List NodeId}
    (h : ∀ st ∈ statements, s'.declared? st = s.declared? st) :
    s'.declarations statements = s.declarations statements := by
  refine List.filterMap_congr fun st hst => ?_
  rw [h st hst]

theorem declarations_append (s : Store) (statements more : List NodeId) :
    s.declarations (statements ++ more) = s.declarations statements ++ s.declarations more :=
  List.filterMap_append

/-- A node declares one variable at most. -/
theorem nodup_declarations {statements : List NodeId} (h : statements.Nodup) :
    ((s.declarations statements).map Prod.snd).Nodup := by
  refine h.sublist ?_
  induction statements with
  | nil => exact .slnil
  | cons st statements ih =>
    have htail := ih h.of_cons
    unfold declarations at htail ⊢
    cases hst : s.declared? st with
    | none => simpa [hst] using htail.cons st
    | some name => simpa [hst] using htail.cons_cons st

/-! ## Carrying statements over -/

/-- The statements `carried` have been given the target as their parent, and have taken what they
declare with them.  No list of statements has changed. -/
def Carried (m : Move) (carried : List NodeId) (s s' : Store) : Prop :=
  ∀ id, s'.get? id = (s.get? id).map fun n =>
    ⟨Move.rescoped ((s.declarations carried).foldl (m.scope id)) n.construct,
      if id ∈ carried then some m.target else n.parent, n.span⟩

namespace Carried

variable {m : Move} {carried more : List NodeId}

theorem refl (m : Move) (s : Store) : Carried m [] s s := by
  intro id
  cases s.get? id with
  | none => rfl
  | some n =>
    obtain ⟨c, parent, span⟩ := n
    cases c <;> rfl

theorem construct?_eq (h : Carried m carried s s') (id : NodeId) : s'.construct? id =
    (s.construct? id).map (Move.rescoped ((s.declarations carried).foldl (m.scope id))) := by
  rw [construct?, h id, construct?, Option.map_map, Option.map_map]
  rfl

/-- What a node declares does not change. -/
theorem declared?_eq (h : Carried m carried s s') (id : NodeId) :
    s'.declared? id = s.declared? id := by
  rw [declared?, h id, declared?]
  cases s.get? id with
  | none => rfl
  | some n =>
    obtain ⟨c, parent, span⟩ := n
    cases c <;> rfl

theorem trans (h : Carried m carried s s₁) (h' : Carried m more s₁ s₂) :
    Carried m (carried ++ more) s s₂ := by
  intro id
  have hdeclarations : s₁.declarations more = s.declarations more :=
    declarations_congr fun st _ => h.declared?_eq st
  rw [h' id, h id, hdeclarations, declarations_append]
  simp only [List.foldl_append]
  cases s.get? id with
  | none => rfl
  | some n =>
    obtain ⟨c, parent, span⟩ := n
    have hparent : (if id ∈ more then some m.target else if id ∈ carried then some m.target
        else parent) = if id ∈ carried ++ more then some m.target else parent := by
      by_cases hmore : id ∈ more <;> by_cases hcarried : id ∈ carried <;> simp [hmore, hcarried]
    simp only [Option.map_some, hparent]
    cases c <;> rfl

end Carried

/-- A block whose scope is put anew. -/
theorem get?_put_rescoped (hblock : s.construct? source = some (.block b)) (f : Scope → Scope)
    (id : NodeId) : (s.put source (.block ⟨b.statements, f b.scope⟩)).get? id =
      (s.get? id).map fun n =>
        ⟨Move.rescoped (fun scope => if id = source then f scope else scope) n.construct,
          n.parent, n.span⟩ := by
  rw [get?_put]
  by_cases heq : source = id
  · subst heq
    obtain ⟨⟨c, parent, span⟩, hget, rfl⟩ := Option.map_eq_some_iff.mp hblock
    rw [if_pos rfl, hget]
    simp [Move.rescoped]
  · rw [if_neg heq]
    cases s.get? id with
    | none => rfl
    | some n =>
      obtain ⟨c, parent, span⟩ := n
      cases c <;> simp [Move.rescoped, Ne.symm heq]

/-- A node may be put as it is. -/
theorem put_self (h : s.construct? id = some c) : s.put id c = s := by
  refine ext_get? fun other => ?_
  rw [get?_put]
  split
  next heq =>
    subst heq
    obtain ⟨n, hget, rfl⟩ := Option.map_eq_some_iff.mp h
    rw [hget]
    rfl
  next => rfl

section Rehome

variable {m : Move}

/-- The two changes of scope that carrying a declaration makes. -/
theorem carried_of_declaration {v : VariableNode}
    (hdecl : s.construct? statement = some (.varDecl v))
    (hsource : s.construct? m.source = some (.block b))
    (hleft : s₁ = s.put m.source (.block ⟨b.statements, b.scope.release (v.name, statement)⟩))
    (htarget : s₁.construct? m.target = some (.block t))
    (hinto : s₂ = s₁.put m.target (.block ⟨t.statements, t.scope.enroll (v.name, statement)⟩)) :
    Carried m [statement] s (s₂.setParent statement m.target) := by
  have hdeclared : s.declarations [statement] = [(v.name, statement)] := by
    obtain ⟨⟨c, parent, span⟩, hget, rfl⟩ := Option.map_eq_some_iff.mp hdecl
    simp [declarations, declared?, hget]
  intro id
  subst hinto hleft
  rw [get?_setParent, get?_put_rescoped htarget (·.enroll _),
    get?_put_rescoped hsource (·.release _), hdeclared]
  cases s.get? id with
  | none => simp
  | some n =>
    obtain ⟨c, parent, span⟩ := n
    by_cases hid : statement = id
    · cases c <;> simp [hid, Move.rescoped, Move.scope]
    · cases c <;> simp [hid, Ne.symm hid, Move.rescoped, Move.scope]

/-- A statement that declares nothing takes nothing with it. -/
theorem carried_of_other (hnone : s.declared? statement = none) :
    Carried m [statement] s (s.setParent statement m.target) := by
  intro id
  rw [get?_setParent]
  have hdeclared : s.declarations [statement] = [] := by simp [declarations, hnone]
  rw [hdeclared]
  cases s.get? id with
  | none => simp
  | some n =>
    obtain ⟨c, parent, span⟩ := n
    by_cases hid : statement = id
    · cases c <;> simp [hid, Move.rescoped]
    · cases c <;> simp [hid, Ne.symm hid, Move.rescoped]

/-- The scope of the source after a declaration has left. -/
theorem put_release {e : Ident × NodeId} (hsource : s.construct? source = some (.block b)) :
    (if b.scope.lookup e.1 = some e.2 then
      s.put source (.block { b with scope := b.scope.erase e.1 }) else s) =
      s.put source (.block ⟨b.statements, b.scope.release e⟩) := by
  rw [Scope.release]
  split
  · rfl
  · exact (put_self hsource).symm

/-- The scope of the target after a declaration has come. -/
theorem put_enroll {e : Ident × NodeId} (htarget : s.construct? target = some (.block t)) :
    (match t.scope.insert e.1 e.2 with
      | .ok scope => s.put target (.block { t with scope })
      | .error _ => s) = s.put target (.block ⟨t.statements, t.scope.enroll e⟩) := by
  rw [Scope.enroll, Scope.contains, Scope.insert]
  cases t.scope.lookup e.1 with
  | none => rfl
  | some node => exact (put_self htarget).symm

/-- A declaration is carried over by two changes of scope. -/
theorem rehome_declaration {v : VariableNode}
    (hdecl : s.construct? statement = some (.varDecl v))
    (hsource : s.construct? source = some (.block b)) :
    let s₁ := s.put source (.block ⟨b.statements, b.scope.release (v.name, statement)⟩)
    rehome source target s statement = (do
      let t ← s₁.read .block target
      return (s₁.put target
        (.block ⟨t.statements, t.scope.enroll (v.name, statement)⟩)).setParent statement target) := by
  intro s₁
  rw [rehome, construct_eq_ok_iff.mpr hdecl]
  simp only [bind, Except.bind, read_block_eq_ok_iff.mpr hsource]
  rw [put_release (e := (v.name, statement)) hsource]
  cases hread : s₁.read .block target with
  | error fault => rfl
  | ok t =>
    have hput := put_enroll (e := (v.name, statement)) (read_block_eq_ok_iff.mp hread)
    exact congrArg (fun store => Except.ok (store.setParent statement target)) hput

theorem rehome_other {c : Construct} (hc : s.construct? statement = some c)
    (hkind : c.kind ≠ .varDecl) :
    rehome source target s statement = .ok (s.setParent statement target) := by
  rw [rehome, construct_eq_ok_iff.mpr hc]
  cases c with
  | varDecl v => exact absurd rfl hkind
  | _ => rfl

/-- What carrying a statement over does. -/
theorem carried_of_rehome (hsource : s.construct? m.source = some (.block b))
    (h : rehome m.source m.target s statement = .ok s') : Carried m [statement] s s' := by
  obtain ⟨c, hconstruct, -⟩ := ok_of_bind h
  have hc := construct_eq_ok_iff.mp hconstruct
  by_cases hkind : c.kind = .varDecl
  · cases c with
    | varDecl v =>
      rw [rehome_declaration hc hsource] at h
      obtain ⟨t, hread, h⟩ := ok_of_bind h
      cases h
      exact carried_of_declaration hc hsource rfl (read_block_eq_ok_iff.mp hread) rfl
    | _ => cases hkind
  · rw [rehome_other hc hkind] at h
    cases h
    exact carried_of_other (declared?_of_construct? hc hkind)

/-- Statements can be carried from block to block. -/
theorem exists_rehome (hsource : s.construct? source = some (.block b))
    (htarget : s.construct? target = some (.block t)) (hid : (s.construct? statement).isSome) :
    ∃ s', rehome source target s statement = .ok s' := by
  obtain ⟨c, hc⟩ := Option.isSome_iff_exists.mp hid
  by_cases hkind : c.kind = .varDecl
  · cases c with
    | varDecl v =>
      rw [rehome_declaration hc hsource]
      -- The target is a block still, even if it is the source.
      obtain ⟨t', ht'⟩ : ∃ t', (s.put source (.block ⟨b.statements,
          b.scope.release (v.name, statement)⟩)).construct? target = some (.block t') := by
        rw [construct?_put, htarget]
        split
        · exact ⟨_, rfl⟩
        · exact ⟨t, rfl⟩
      rw [read_block_eq_ok_iff.mpr ht']
      exact ⟨_, rfl⟩
    | _ => cases hkind
  · exact ⟨_, rehome_other hc hkind⟩

end Rehome

section Fold

variable {m : Move} {carried : List NodeId}

theorem Carried.exists_block (h : Carried m carried s s')
    (hb : s.construct? id = some (.block b)) :
    ∃ b', s'.construct? id = some (.block b') ∧ b'.statements = b.statements := by
  rw [h.construct?_eq, hb]
  exact ⟨_, rfl, rfl⟩

theorem carried_of_foldlM (hsource : s.construct? m.source = some (.block b))
    (h : carried.foldlM (rehome m.source m.target) s = .ok s') : Carried m carried s s' := by
  induction carried generalizing s b with
  | nil =>
    cases h
    exact .refl m _
  | cons statement carried ih =>
    rw [List.foldlM_cons] at h
    obtain ⟨s₁, hstep, hrest⟩ := ok_of_bind h
    have hone := carried_of_rehome hsource hstep
    obtain ⟨b₁, hb₁, -⟩ := hone.exists_block hsource
    exact hone.trans (ih hb₁ hrest)

theorem exists_foldlM (hsource : s.construct? m.source = some (.block b))
    (htarget : s.construct? m.target = some (.block t))
    (hids : ∀ id ∈ carried, (s.construct? id).isSome) :
    ∃ s', carried.foldlM (rehome m.source m.target) s = .ok s' := by
  induction carried generalizing s b t with
  | nil => exact ⟨s, rfl⟩
  | cons statement carried ih =>
    obtain ⟨s₁, hstep⟩ := exists_rehome hsource htarget (hids statement (by simp))
    have hone := carried_of_rehome hsource hstep
    obtain ⟨b₁, hb₁, -⟩ := hone.exists_block hsource
    obtain ⟨t₁, ht₁, -⟩ := hone.exists_block htarget
    obtain ⟨s₂, hrest⟩ := ih hb₁ ht₁ fun id hid => by
      rw [hone.construct?_eq, Option.isSome_map]
      exact hids id (by simp [hid])
    refine ⟨s₂, ?_⟩
    rw [List.foldlM_cons, hstep]
    exact hrest

end Fold

/-! ## Relocation -/

/-- A store comes from another by a move. -/
structure Moves (m : Move) (s s' : Store) : Prop where
  source : ∃ b, s.construct? m.source = some (.block b) ∧ b.statements = m.kept ++ m.moved
  target : m.moved ≠ [] → ∃ t, s.construct? m.target = some (.block t)
  node : ∀ id, s'.get? id = (s.get? id).map (m.node (s.declarations m.moved) id)

section Relocate

variable {m : Move}

theorem Moves.construct?_eq (h : Moves m s s') (id : NodeId) :
    s'.construct? id = (s.construct? id).map (m.construct (s.declarations m.moved) id) := by
  rw [construct?, h.node, construct?, Option.map_map, Option.map_map]
  rfl

/-- What a node declares does not change. -/
theorem Moves.declared?_eq (h : Moves m s s') (id : NodeId) :
    s'.declared? id = s.declared? id := by
  rw [declared?, h.node, declared?]
  cases s.get? id with
  | none => rfl
  | some n =>
    obtain ⟨c, parent, span⟩ := n
    cases c <;> rfl

/-- The source is cut off, the statements are carried over, and the target lists them. -/
theorem moves_of_steps (hsource : s.construct? m.source = some (.block b))
    (hstatements : b.statements = m.kept ++ m.moved)
    (hcarried : Carried m m.moved (s.put m.source (.block ⟨m.kept, b.scope⟩)) s₁)
    (htarget : s₁.construct? m.target = some (.block t)) :
    Moves m s (s₁.put m.target (.block ⟨t.statements ++ m.moved, t.scope⟩)) := by
  have hdeclared : ∀ id, (s.put m.source (.block ⟨m.kept, b.scope⟩)).declared? id =
      s.declared? id := declared?_put hsource (by simp [Construct.kind]) (by simp [Construct.kind])
  have hdeclarations : (s.put m.source (.block ⟨m.kept, b.scope⟩)).declarations m.moved =
      s.declarations m.moved := declarations_congr fun st _ => hdeclared st
  have htarget' : m.moved ≠ [] → ∃ t', s.construct? m.target = some (.block t') := by
    intro _
    rw [hcarried.construct?_eq, construct?_put] at htarget
    split at htarget
    next heq => exact ⟨b, heq ▸ hsource⟩
    next =>
      obtain ⟨c, hc, hblock⟩ := Option.map_eq_some_iff.mp htarget
      cases c with
      | block t' => exact ⟨t', hc⟩
      | _ => cases hblock
  refine ⟨⟨b, hsource, hstatements⟩, htarget', fun id => ?_⟩
  have hcarried' := hcarried id
  rw [hdeclarations, get?_put] at hcarried'
  rw [get?_put]
  cases hn : s.get? id with
  | none => simp [hcarried', hn]
  | some n =>
    obtain ⟨c, parent, span⟩ := n
    by_cases hs : m.source = id
    · have hc : c = .block b := by
        rw [construct?, hs, hn] at hsource
        exact Option.some.inj hsource
      subst hc
      rw [if_pos hs, hn] at hcarried'
      by_cases ht : m.target = id
      · rw [construct?, ht, hcarried'] at htarget
        cases htarget
        simp [hcarried', ht, hs, Move.node, Move.construct, Move.statements, Move.parent]
      · simp [hcarried', ht, Ne.symm ht, hs, Move.node, Move.construct, Move.statements,
          Move.parent, Move.rescoped]
    · rw [if_neg hs, hn] at hcarried'
      by_cases ht : m.target = id
      · rw [construct?, ht, hcarried'] at htarget
        cases c with
        | block t' =>
          cases htarget
          simp [hcarried', ht, Ne.symm hs, Move.node, Move.construct, Move.statements, Move.parent]
        | _ => cases htarget
      · rw [if_neg ht, hcarried']
        cases c <;> simp [Move.node, Move.construct, Move.statements, Move.parent, Move.rescoped,
          Ne.symm hs, Ne.symm ht]

/-- Nothing is moved from a place behind the last statement. -/
theorem moves_none (hsource : s.construct? m.source = some (.block b))
    (hkept : b.statements = m.kept) (hmoved : m.moved = []) : Moves m s s := by
  refine ⟨⟨b, hsource, by rw [hkept, hmoved, List.append_nil]⟩, fun h => absurd hmoved h,
    fun id => ?_⟩
  cases hn : s.get? id with
  | none => rfl
  | some n =>
    obtain ⟨c, parent, span⟩ := n
    by_cases hs : id = m.source
    · have hc : c = .block b := by
        rw [construct?, ← hs, hn] at hsource
        exact Option.some.inj hsource
      subst hc
      simp [Move.node, Move.construct, Move.statements, Move.parent, hmoved, declarations, ← hkept]
    · cases c <;> simp [Move.node, Move.construct, Move.statements, Move.parent, hmoved,
        declarations, hs]

end Relocate

/-- What moving statements does. -/
theorem moves_of_relocate {start count : Nat}
    (h : s.relocate source target start = .ok (count, s')) :
    ∃ b, s.construct? source = some (.block b) ∧ count = b.statements.length - start ∧
      Moves (.cut source target b.statements start) s s' := by
  obtain ⟨b, hread, h⟩ := ok_of_bind h
  have hsource := read_block_eq_ok_iff.mp hread
  refine ⟨b, hsource, ?_⟩
  by_cases hstart : b.statements.length ≤ start
  · rw [if_pos hstart] at h
    cases h
    refine ⟨by omega, moves_none hsource ?_ ?_⟩
    · exact (List.take_of_length_le hstart).symm
    · exact List.drop_of_length_le hstart
  · rw [if_neg hstart] at h
    obtain ⟨s₁, hfold, h⟩ := ok_of_bind h
    obtain ⟨t, htarget, h⟩ := ok_of_bind h
    cases h
    have hput : (s.put source (.block ⟨b.statements.take start, b.scope⟩)).construct? source =
        some (.block ⟨b.statements.take start, b.scope⟩) := by
      rw [construct?_put, if_pos rfl, hsource]
      rfl
    have hcarried := carried_of_foldlM (m := .cut source target b.statements start) hput hfold
    exact ⟨List.length_drop, moves_of_steps hsource (List.take_append_drop start _).symm hcarried
      (read_block_eq_ok_iff.mp htarget)⟩

/-- Statements can be moved from block to block. -/
theorem exists_relocate (start : Nat) (hsource : s.construct? source = some (.block b))
    (htarget : s.construct? target = some (.block t))
    (hids : ∀ id ∈ b.statements, (s.construct? id).isSome) :
    ∃ s', s.relocate source target start = .ok (b.statements.length - start, s') := by
  have hread := read_block_eq_ok_iff.mpr hsource
  by_cases hstart : b.statements.length ≤ start
  · refine ⟨s, ?_⟩
    rw [relocate, hread, Nat.sub_eq_zero_of_le hstart]
    simp [bind, Except.bind, hstart, pure, Except.pure]
  · -- Cutting the source off leaves every node its kind.
    have hput : ∀ id, (s.put source (.block ⟨b.statements.take start, b.scope⟩)).construct? id =
        if source = id then (s.construct? id).map fun _ => .block ⟨b.statements.take start, b.scope⟩
        else s.construct? id := fun id => construct?_put ..
    have hsource' : (s.put source (.block ⟨b.statements.take start, b.scope⟩)).construct? source =
        some (.block ⟨b.statements.take start, b.scope⟩) := by
      rw [hput, if_pos rfl, hsource]
      rfl
    obtain ⟨t', ht'⟩ : ∃ t', (s.put source (.block ⟨b.statements.take start, b.scope⟩)).construct?
        target = some (.block t') := by
      rw [hput, htarget]
      split
      · exact ⟨_, rfl⟩
      · exact ⟨t, rfl⟩
    have hids' : ∀ id ∈ b.statements.drop start,
        ((s.put source (.block ⟨b.statements.take start, b.scope⟩)).construct? id).isSome := by
      intro id hid
      rw [hput]
      have hid' := hids id (List.mem_of_mem_drop hid)
      split
      · rwa [Option.isSome_map]
      · exact hid'
    obtain ⟨s₁, hfold⟩ :=
      exists_foldlM (m := .cut source target b.statements start) hsource' ht' hids'
    have hcarried := carried_of_foldlM (m := .cut source target b.statements start) hsource' hfold
    obtain ⟨t₁, ht₁, -⟩ := hcarried.exists_block ht'
    refine ⟨s₁.put target (.block ⟨t₁.statements ++ b.statements.drop start, t₁.scope⟩), ?_⟩
    rw [relocate, hread]
    simp only [bind, Except.bind, if_neg hstart]
    rw [show (b.statements.drop start).foldlM (rehome source target) _ = _ from hfold]
    dsimp only
    rw [read_block_eq_ok_iff.mpr ht₁, ← List.length_drop]
    rfl

/-! ## Splitting -/

/-- A node is attached by setting its parent, if it has none. -/
theorem attach_eq_ok_iff {child parent : NodeId} : s.attach child parent = .ok s' ↔
    child ≠ parent ∧ s.IsRoot child ∧ s' = s.setParent child parent := by
  constructor
  · intro h
    by_cases hne : child = parent
    · rw [attach, if_pos hne] at h
      cases h
    · rw [attach, if_neg hne] at h
      obtain ⟨n, hn, h⟩ := ok_of_bind h
      have hget := node_eq_ok_iff.mp hn
      cases hp : n.parent with
      | some p =>
        rw [hp] at h
        cases h
      | none =>
        rw [hp] at h
        cases h
        exact ⟨hne, ⟨n, hget, hp⟩, rfl⟩
  · rintro ⟨hne, ⟨n, hn, hroot⟩, rfl⟩
    exact attach_eq_setParent hne hn hroot

/-- A store has one node more, at the end. -/
def Added (n : Node) (s s' : Store) : Prop :=
  ∀ id, s'.get? id = if id = s.fresh then some n else s.get? id

theorem Added.get?_new {n : Node} (h : Added n s s') : s'.get? s.fresh = some n := by
  rw [h, if_pos rfl]

theorem Added.get?_of_get? {n m : Node} (h : Added n s s') (hm : s.get? id = some m) :
    s'.get? id = some m := by
  rw [h, if_neg (ne_fresh hm), hm]

theorem added_push (s : Store) (c : Construct) (span : Option Span) :
    Added ⟨c, none, span⟩ s (s.push c span) :=
  fun id => get?_push s c span id

/-- A node that is attached as soon as it is added. -/
theorem added_of_attach {parent : NodeId} {span : Option Span}
    (h : (s.push c span).attach s.fresh parent = .ok s₁) : Added ⟨c, some parent, span⟩ s s₁ := by
  intro id
  obtain ⟨-, -, rfl⟩ := attach_eq_ok_iff.mp h
  rw [get?_setParent, get?_push]
  by_cases hid : id = s.fresh
  · simp [hid]
  · simp [hid, Ne.symm hid]

/-- What splitting a block does: an empty block is added beside it, and statements are moved
there. -/
theorem moves_of_split {block new : NodeId} {place : Nat}
    (h : s.split block place = .ok (.ok (new, s'))) :
    ∃ b parent span s₁, s.get? block = some ⟨.block b, parent, span⟩ ∧
      (b.statements = [] ∨ place < b.statements.length) ∧ new = s.fresh ∧
      Added ⟨.emptyBlock, parent, span⟩ s s₁ ∧
      Moves (.cut block new b.statements place) s₁ s' := by
  obtain ⟨b, hread, h⟩ := ok_of_bind h
  obtain ⟨⟨c, parent, span⟩, hget, rfl⟩ :=
    Option.map_eq_some_iff.mp (read_block_eq_ok_iff.mp hread)
  by_cases hbounds : b.statements ≠ [] ∧ b.statements.length ≤ place
  · rw [if_pos hbounds] at h
    cases h
  · rw [if_neg hbounds, node, hget] at h
    obtain ⟨_, hnode, h⟩ := ok_of_bind h
    cases hnode
    obtain ⟨s₁, hadded, count, hmove, rfl⟩ : ∃ s₁, Added ⟨.emptyBlock, parent, span⟩ s s₁ ∧
        ∃ count, s₁.relocate block s.fresh place = .ok (count, s') ∧ new = s.fresh := by
      cases parent with
      | none =>
        obtain ⟨_, hpure, h⟩ := ok_of_bind h
        cases hpure
        obtain ⟨⟨moved, s₂⟩, hmove, h⟩ := ok_of_bind h
        cases h
        exact ⟨_, added_push s .emptyBlock span, _, hmove, rfl⟩
      | some p =>
        obtain ⟨s₁, hattach, h⟩ := ok_of_bind h
        obtain ⟨⟨moved, s₂⟩, hmove, h⟩ := ok_of_bind h
        cases h
        exact ⟨s₁, added_of_attach hattach, _, hmove, rfl⟩
    obtain ⟨b₁, hb₁, -, hmoves⟩ := moves_of_relocate hmove
    obtain rfl : b₁ = b := by
      cases hb₁.symm.trans (construct?_of_get? (hadded.get?_of_get? hget))
      rfl
    refine ⟨b₁, parent, span, s₁, hget, ?_, rfl, hadded, hmoves⟩
    by_cases hnil : b₁.statements = []
    · exact .inl hnil
    · exact .inr (Nat.lt_of_not_le fun hle => hbounds ⟨hnil, hle⟩)

end Store

end FrontEnd
