import Mathlib.Data.List.Forall2
import Mathlib.Data.List.Pairwise
import FrontEnd.Proofs.Grammar.Reprinting
import FrontEnd.Proofs.Grammar.Turns

/-!
# What parsing reports

Each attempt at a declaration has one of three fates: it becomes an item of the module, its name is
taken by an earlier one, or it cannot be read.  In the first case nothing is reported, and in the
other two cases one notice is.  Besides, a module that is closed without any attempt is warned
about, and if parsing fails as a whole, then the last notice says why.  Nothing else is reported,
and nothing is dropped without a notice.

## Main definitions

* `Fate`, `fates`: what comes of attempts, told from their results only.
* `Attempted`: the attempts that reading a module makes.

## Main statements

* `Loop.Turns.reports`: what turns of the loop report, and which items they leave.
* `parseModule_reports`: what parsing reports.
-/

namespace FrontEnd.Grammar

open Store (Grown)

variable {s s' s₁ s₂ : State} {around : Option Position} {room : Nat} {name : Ident}

/-! ## Fates -/

/-- What comes of an attempt at a declaration. -/
inductive Fate
  /-- It becomes an item. -/
  | item (declared : Declared)
  /-- Its name is taken. -/
  | repeated (declared : Declared)
  /-- It cannot be read. -/
  | failed (marker : Marker)

namespace Fate

/-- The result of an attempt, whatever else comes of it. -/
def result : Fate → Except Marker Declared
  | .item declared | .repeated declared => .ok declared
  | .failed marker => .error marker

/-- The item that an attempt becomes. -/
def item? : Fate → Option Declared
  | .item declared => some declared
  | _ => none

def isItem : Fate → Bool
  | .item _ => true
  | _ => false

def isRepeated : Fate → Bool
  | .repeated _ => true
  | _ => false

def isFailed : Fate → Bool
  | .failed _ => true
  | _ => false

/-- A notice is the one about an attempt.  The failure of an attempt names it by its number among
all notices. -/
def Reports (notices : List Notice) : Fate → Notice → Prop
  | .item _, _ => False
  | .repeated declared, notice => notice = .of (.duplicateDefinition declared.name) declared.span
  | .failed marker, notice => notice.isError = true ∧ notices[marker.notice]? = some notice

theorem Reports.isError {notices : List Notice} {fate : Fate} {notice : Notice}
    (h : fate.Reports notices notice) : notice.isError = true := by
  cases fate with
  | item _ => exact h.elim
  | repeated declared => exact h ▸ rfl
  | failed marker => exact h.1

/-- A report stays one if notices are added. -/
theorem Reports.append {notices : List Notice} {fate : Fate} {notice : Notice}
    (h : fate.Reports notices notice) (more : List Notice) :
    fate.Reports (notices ++ more) notice := by
  cases fate with
  | item _ => exact h
  | repeated declared => exact h
  | failed marker =>
    obtain ⟨hbound, -⟩ := List.getElem?_eq_some_iff.mp h.2
    exact ⟨h.1, by rw [List.getElem?_append_left hbound, h.2]⟩

end Fate

/-- What comes of an attempt, given the declarations that were read before it. -/
def Fate.of (earlier : List Declared) : Except Marker Declared → Fate
  | .ok declared =>
    if earlier.any fun d => d.name.same declared.name then .repeated declared else .item declared
  | .error marker => .failed marker

/-- What comes of attempts, given the declarations that were read before them. -/
def fates : List Declared → List (Except Marker Declared) → List Fate
  | _, [] => []
  | earlier, result :: rest => .of earlier result :: fates (earlier ++ result.toOption.toList) rest

theorem Fate.result_of (earlier : List Declared) (result : Except Marker Declared) :
    (Fate.of earlier result).result = result := by
  cases result with
  | ok declared =>
    rw [Fate.of]
    split <;> rfl
  | error marker => rfl

theorem map_result_fates (earlier : List Declared) (results : List (Except Marker Declared)) :
    (fates earlier results).map Fate.result = results := by
  induction results generalizing earlier with
  | nil => rfl
  | cons result rest ih => rw [fates, List.map_cons, Fate.result_of, ih]

/-- Attempts that do not become items have failed or repeat a name. -/
theorem length_filter_not_isItem (all : List Fate) :
    (all.filter fun fate => !fate.isItem).length =
      all.countP Fate.isFailed + all.countP Fate.isRepeated := by
  induction all with
  | nil => rfl
  | cons fate rest ih =>
    rw [List.countP_cons, List.countP_cons]
    cases fate with
    | item _ => exact ih
    | repeated _ =>
      change (rest.filter _).length + 1 = rest.countP _ + 0 + (rest.countP _ + 1)
      omega
    | failed _ =>
      change (rest.filter _).length + 1 = rest.countP _ + 1 + (rest.countP _ + 0)
      omega

/-! ## Items of a module -/

/-- A store holds a module with some items. -/
def Enrolled (store : Store) (root : NodeId) (name : Ident) (items : List Declared) : Prop :=
  store.get? root = some ⟨.module ⟨name, items.map Declared.node,
    ⟨items.map fun d => (d.name, d.node)⟩⟩, none, none⟩

section Enrolled

variable {store store' : Store} {root : NodeId} {items : List Declared}

theorem Enrolled.grow (h : Enrolled store root name items) (hgrown : Grown store store') :
    Enrolled store' root name items :=
  hgrown.get?_eq h

/-- A name is found in a module exactly if an item has it. -/
theorem Enrolled.isSome_itemNamed? (h : Enrolled store root name items) (other : Ident) :
    (store.itemNamed? root other).isSome = items.any fun d => d.name.same other := by
  rw [Enrolled] at h
  simp only [Store.itemNamed?, h, Scope.lookup, List.find?_map, Option.isSome_map]
  exact List.isSome_find?

theorem Enrolled.enlist (h : Enrolled store root name items) {declared : Declared}
    (hne : declared.node ≠ root) :
    Enrolled (store.enlist root declared.name declared.node) root name (items ++ [declared]) := by
  rw [Enrolled] at h ⊢
  simp only [Store.enlist, h, Store.get?_setParent, if_neg hne, Store.get?_put]
  simp [Scope.append]

/-- The span of a module is set last. -/
theorem Enrolled.get?_setSpan (h : Enrolled store root name items) (span : Span) :
    ∃ m, (store.setSpan root span).get? root = some ⟨.module m, none, some span⟩ ∧
      m.items = items.map Declared.node := by
  refine ⟨⟨name, items.map Declared.node, ⟨items.map fun d => (d.name, d.node)⟩⟩, ?_, rfl⟩
  rw [Store.get?_setSpan, if_pos rfl, h]
  rfl

/-- What registering a declaration does to a module with some items. -/
theorem register_run {declared : Declared} (h : Enrolled s.store root name items)
    (hrun : outcome (register root declared) around s = .ok () s') :
    if items.any fun d => d.name.same declared.name then
      s'.notices = s.notices.push (.of (.duplicateDefinition declared.name) declared.span) ∧
        s'.store = s.store
    else s'.notices = s.notices ∧ s'.store = s.store.enlist root declared.name declared.node := by
  rw [← h.isSome_itemNamed? declared.name]
  rw [register, get_bind] at hrun
  cases hitem : s.store.itemNamed? root declared.name with
  | none =>
    rw [hitem] at hrun
    cases hrun
    exact ⟨rfl, rfl⟩
  | some found =>
    rw [hitem] at hrun
    cases hrun
    exact ⟨rfl, rfl⟩

end Enrolled

/-! ## What a turn reports -/

/-- The node of a declaration that is read is new, and nothing is reported. -/
theorem declaration_run {declared : Declared} (hs : s.Ended)
    (hrun : outcome (declaration room) around s = .ok declared s₁) :
    s₁.notices = s.notices ∧ Grown s.store s₁.store ∧ s.store.size ≤ declared.node.index ∧
      declared.node.index < s₁.store.size := by
  obtain ⟨ts, hreached, d, -, hplant⟩ := (plants_declaration room around hs).of_ok hrun
  exact ⟨hreached.passes.notices, hreached.grown, hplant.placed.within⟩

/-- The names that count are those of the items: a name that is repeated was there before. -/
theorem any_same_of_fate {earlier items : List Declared}
    (hsame : ∀ n, (earlier.any fun d => d.name.same n) = items.any fun d => d.name.same n)
    (result : Except Marker Declared) (n : Ident) :
    ((earlier ++ result.toOption.toList).any fun d => d.name.same n) =
      (items ++ [Fate.of earlier result].filterMap Fate.item?).any fun d => d.name.same n := by
  rw [List.any_append, List.any_append, hsame]
  cases result with
  | error marker => rfl
  | ok declared =>
    rw [Fate.of]
    split
    next htaken =>
      rw [hsame] at htaken
      obtain ⟨d, hd, hdsame⟩ := List.any_eq_true.mp htaken
      change (_ || (declared.name.same n || false)) = (_ || false)
      rw [Bool.or_false, Bool.or_false]
      cases hn : declared.name.same n with
      | false => rw [Bool.or_false]
      | true =>
        rw [Bool.or_true, eq_comm, List.any_eq_true]
        exact ⟨d, hd, Ident.same_trans hdsame hn⟩
    next => rfl

namespace Loop

variable {l : Loop} {turn : Turn} {turns : List Turn} {earlier items : List Declared}

/-- What a turn reports, and which item it adds. -/
theorem Takes.reports (h : l.Takes turn) (hs : turn.head.Ended)
    (henrolled : Enrolled turn.head.store l.root name items)
    (hsame : ∀ n, (earlier.any fun d => d.name.same n) = items.any fun d => d.name.same n) :
    ∃ new, turn.next.notices.toList = turn.head.notices.toList ++ new ∧
      List.Forall₂ (Fate.Reports turn.next.notices.toList)
        ([Fate.of earlier turn.result].filter fun fate => !fate.isItem) new ∧
      Enrolled turn.next.store l.root name
        (items ++ [Fate.of earlier turn.result].filterMap Fate.item?) := by
  have hroot := Store.index_lt_of_get? henrolled
  cases h with
  | @read head s₁ next declared hclose hnext hd hregister =>
    obtain ⟨hnotices, hgrown, hnew, -⟩ := declaration_run hs hd
    have hne : declared.node ≠ l.root := by
      rintro heq
      rw [heq] at hnew
      exact Nat.lt_irrefl _ (Nat.lt_of_lt_of_le hroot hnew)
    have hrun := register_run (henrolled.grow hgrown) hregister
    rw [← hsame, hnotices] at hrun
    dsimp only [Fate.of]
    split at hrun
    next htaken =>
      rw [if_pos htaken]
      refine ⟨[.of (.duplicateDefinition declared.name) declared.span], by simp [hrun.1],
        .cons rfl .nil, ?_⟩
      change Enrolled next.store l.root name (items ++ [])
      rw [hrun.2, List.append_nil]
      exact henrolled.grow hgrown
    next htaken =>
      rw [if_neg htaken]
      refine ⟨[], by simp [hrun.1], .nil, ?_⟩
      rw [hrun.2]
      exact (henrolled.grow hgrown).enlist hne
  | @failed head s₁ next marker hclose hnext hd hsync =>
    have hspoilt := (plants_declaration l.room l.around hs).of_error hd
    obtain ⟨d, span, hsyntax, hpush⟩ := hspoilt.notice
    obtain ⟨read, hmoved⟩ := hspoilt.moved
    have hfares := balanced_declaration l.room 0 l.around head head (.refl hs)
    rw [hd] at hfares
    obtain ⟨-, -, -, hstore, hnotices⟩ := synchronize_run (hmoved.ended hs) hsync
    have hmarker : marker.notice = head.notices.size := by
      have hlast := hfares.2
      rw [hpush, Array.size_push] at hlast
      exact Nat.add_right_cancel hlast
    refine ⟨[.of d span], by simp [hnotices, hpush],
      .cons ⟨isError_of_isSyntax hsyntax span, ?_⟩ .nil, ?_⟩
    · simp [hnotices, hpush, hmarker]
    · change Enrolled next.store l.root name (items ++ [])
      rw [hstore, List.append_nil]
      exact henrolled.grow hspoilt.grown

/-- What turns report, and which items they add. -/
theorem Turns.reports (h : l.Turns s turns s') (hs : s.Ended)
    (henrolled : Enrolled s.store l.root name items)
    (hsame : ∀ n, (earlier.any fun d => d.name.same n) = items.any fun d => d.name.same n) :
    ∃ new, s'.notices.toList = s.notices.toList ++ new ∧
      List.Forall₂ (Fate.Reports s'.notices.toList)
        ((fates earlier (turns.map Turn.result)).filter fun fate => !fate.isItem) new ∧
      Enrolled s'.store l.root name
        (items ++ (fates earlier (turns.map Turn.result)).filterMap Fate.item?) := by
  induction h generalizing earlier items with
  | nil s => exact ⟨[], by simp, .nil, by simpa [fates] using henrolled⟩
  | @cons turn turns s' hturn _ ih =>
    obtain ⟨new, hnew, hreports, henrolled'⟩ := hturn.reports hs henrolled hsame
    obtain ⟨read, hmoved, -⟩ := hturn.moved hs
    obtain ⟨more, hmore, hreports', henrolled''⟩ :=
      ih (hmoved.ended hs) henrolled' (any_same_of_fate hsame turn.result)
    rw [List.map_cons, fates, ← List.singleton_append, List.filter_append, List.filterMap_append]
    refine ⟨new ++ more, by rw [hmore, hnew, List.append_assoc], List.rel_append ?_ hreports', ?_⟩
    · exact hreports.imp fun fate notice hreport => hmore ▸ hreport.append more
    · rwa [List.append_assoc] at henrolled''

/-- The declaration that a turn reads has a new node. -/
theorem Takes.size_le (h : l.Takes turn) (hs : turn.head.Ended) :
    turn.head.store.size ≤ turn.next.store.size ∧ ∀ declared, turn.result = .ok declared →
      turn.head.store.size ≤ declared.node.index ∧
        declared.node.index < turn.next.store.size := by
  cases h with
  | @read head s₁ next declared hclose hnext hd hregister =>
    obtain ⟨-, hgrown, hlow, hhigh⟩ := declaration_run hs hd
    have hsize := (register_frame hregister).2.2
    refine ⟨hsize ▸ hgrown.size_le, fun other hother => ?_⟩
    cases hother
    exact ⟨hlow, hsize ▸ hhigh⟩
  | @failed head s₁ next marker hclose hnext hd hsync =>
    have hspoilt := (plants_declaration l.room l.around hs).of_error hd
    obtain ⟨read, hmoved⟩ := hspoilt.moved
    obtain ⟨-, -, -, hstore, -⟩ := synchronize_run (hmoved.ended hs) hsync
    exact ⟨hstore ▸ hspoilt.grown.size_le, fun _ h => by cases h⟩

/-- No two turns read a declaration with the same node. -/
theorem Turns.pairwise_node_ne (h : l.Turns s turns s') (hs : s.Ended) :
    (∀ declared, .ok declared ∈ turns.map Turn.result → s.store.size ≤ declared.node.index) ∧
      (turns.map Turn.result).Pairwise fun a b =>
        ∀ d e, a = .ok d → b = .ok e → d.node ≠ e.node := by
  induction h with
  | nil s => simp
  | @cons turn turns s' hturn _ ih =>
    obtain ⟨hsize, hnode⟩ := hturn.size_le hs
    obtain ⟨read, hmoved, -⟩ := hturn.moved hs
    obtain ⟨hlow, hpairwise⟩ := ih (hmoved.ended hs)
    refine ⟨fun declared hmem => ?_, .cons (fun result hmem d e hd he heq => ?_) hpairwise⟩
    · rcases List.mem_cons.mp hmem with heq | hmem
      · exact (hnode declared heq.symm).1
      · exact Nat.le_trans hsize (hlow declared hmem)
    · have hfirst := (hnode d hd).2
      have hlater := hlow e (he ▸ hmem)
      rw [heq] at hfirst
      omega

end Loop

/-! ## What parsing reports -/

/-- The turns that reading a module takes, and whether a closing brace follows them.  Without a
header there are none. -/
inductive Attempted (s : State) : List Turn → Bool → Prop
  | refused : (¬ ∃ name body, s.values = headerTokens name ++ body) → Attempted s [] false
  | entered {name : Ident} {body : List Token} {turns : List Turn} {s₁ : State} :
      s.values = headerTokens name ++ body →
      (Loop.ofModule maxNesting s name).Run (loopStart s name) turns s₁ →
      Attempted s turns (s₁.cursor.kind = .symbol .closeCurly)

/-- The notices of parsing, by what they are about. -/
structure Account (turns : List Turn) (closed : Bool) (before : Notices) (parsed : Parsed)
    (reports warning final : List Notice) : Prop where
  notices : parsed.notices.toList = before.toList ++ (reports ++ warning ++ final)
  reports : List.Forall₂ (Fate.Reports parsed.notices.toList)
    ((fates [] (turns.map Turn.result)).filter fun fate => !fate.isItem) reports
  warning : ∃ name span,
    warning = if closed && turns.isEmpty then [.of (.emptyModule name) span] else []
  final : match parsed.result with
    | .ok _ => final = []
    | .error marker => ∃ notice, final = [notice] ∧ notice.isError = true ∧
        parsed.notices.toList[marker.notice]? = some notice ∧
        marker.notice + 1 = parsed.notices.size

section Account

variable {turns : List Turn} {closed : Bool} {before : Notices} {parsed : Parsed}
  {reports warning final : List Notice}

/-- How many notices there are. -/
theorem Account.length_eq (h : Account turns closed before parsed reports warning final) :
    (reports ++ warning ++ final).length =
      (fates [] (turns.map Turn.result)).countP Fate.isFailed +
      (fates [] (turns.map Turn.result)).countP Fate.isRepeated +
      (if closed && turns.isEmpty then 1 else 0) +
      (match parsed.result with | .ok _ => 0 | .error _ => 1) := by
  have hwarning : warning.length = if closed && turns.isEmpty then 1 else 0 := by
    obtain ⟨name, span, rfl⟩ := h.warning
    split <;> rfl
  have hfinal : final.length = match parsed.result with | .ok _ => 0 | .error _ => 1 := by
    have := h.final
    cases hresult : parsed.result with
    | ok root =>
      rw [hresult] at this
      rw [this]
      rfl
    | error marker =>
      rw [hresult] at this
      obtain ⟨notice, rfl, -⟩ := this
      rfl
  rw [List.length_append, List.length_append, ← h.reports.length_eq, length_filter_not_isItem,
    hwarning, hfinal]

/-- If parsing succeeds, then all errors are reports about attempts. -/
theorem Account.clean_iff (h : Account turns closed before parsed reports warning final)
    {root : NodeId} (hroot : parsed.result = .ok root) :
    (∀ notice ∈ reports ++ warning ++ final, notice.isError = false) ↔ reports = [] := by
  have hfinal := h.final
  rw [hroot] at hfinal
  obtain ⟨name, span, rfl⟩ := h.warning
  rw [hfinal, List.append_nil]
  constructor
  · intro hclean
    cases reports with
    | nil => rfl
    | cons notice rest =>
      obtain ⟨fate, _, hreport, -⟩ := List.forall₂_cons_right_iff.mp h.reports
      have hno := hclean notice (by simp)
      rw [hreport.isError] at hno
      cases hno
  · rintro rfl notice hmem
    split at hmem
    · obtain rfl := List.mem_singleton.mp hmem
      rfl
    · cases hmem

/-- If parsing fails after some reports, then one more says why. -/
theorem Account.of_error {d : Diagnostic} (hd : d.isSyntax = true) (span : Span)
    (hnotices : s.notices.toList = before.toList ++ (reports ++ warning))
    (hreports : List.Forall₂ (Fate.Reports s.notices.toList)
      ((fates [] (turns.map Turn.result)).filter fun fate => !fate.isItem) reports)
    (hwarning : ∃ name span,
      warning = if closed && turns.isEmpty then [.of (.emptyModule name) span] else []) :
    Account turns closed before (.ofResult (.error ⟨s.notices.size⟩ (s.record d span))) reports
      warning [.of d span] where
  notices := by simp [Parsed.ofResult, State.record, hnotices]
  reports := by
    refine hreports.imp fun fate notice hreport => ?_
    simpa [Parsed.ofResult, State.record] using hreport.append [.of d span]
  warning := hwarning
  final := ⟨.of d span, rfl, isError_of_isSyntax hd span, by simp [Parsed.ofResult, State.record],
    by simp [Parsed.ofResult, State.record]⟩

/-- No attempt is reported exactly if every attempt becomes an item. -/
theorem reports_eq_nil_iff {results : List (Except Marker Declared)} {notices : List Notice}
    (hreports : List.Forall₂ (Fate.Reports notices)
      ((fates [] results).filter fun fate => !fate.isItem) reports)
    (hnodes : results.Pairwise fun a b => ∀ d e, a = .ok d → b = .ok e → d.node ≠ e.node) :
    reports = [] ↔ ∀ result ∈ results, ∃ d, result = .ok d ∧
      d.node ∈ ((fates [] results).filterMap Fate.item?).map Declared.node := by
  have hmap := map_result_fates [] results
  generalize fates [] results = all at hreports hmap
  have hnil : reports = [] ↔ ∀ fate ∈ all, fate.isItem = true := by
    rw [← List.length_eq_zero_iff, ← hreports.length_eq, List.length_eq_zero_iff,
      List.filter_eq_nil_iff]
    simp
  rw [hnil]
  subst hmap
  constructor
  · intro hall result hmem
    obtain ⟨fate, hfate, rfl⟩ := List.mem_map.mp hmem
    have hitem := hall fate hfate
    cases fate with
    | item d =>
      exact ⟨d, rfl, List.mem_map_of_mem (List.mem_filterMap.mpr ⟨.item d, hfate, rfl⟩)⟩
    | repeated d => cases hitem
    | failed marker => cases hitem
  · intro hall fate hfate
    cases fate with
    | item d => rfl
    | failed marker =>
      obtain ⟨d, hd, -⟩ := hall _ (List.mem_map_of_mem hfate)
      cases hd
    | repeated d =>
      -- Some item would have the node of this declaration, and nodes are not used twice.
      obtain ⟨d', hd, hmem⟩ := hall _ (List.mem_map_of_mem hfate)
      cases hd
      obtain ⟨e, he, hnode⟩ := List.mem_map.mp hmem
      obtain ⟨other, hother, hitem⟩ := List.mem_filterMap.mp he
      cases other with
      | repeated _ => cases hitem
      | failed _ => cases hitem
      | item e' =>
        cases hitem
        have : Std.Symm fun a b : Fate =>
            ∀ d e, a.result = .ok d → b.result = .ok e → d.node ≠ e.node :=
          ⟨fun _ _ hab d e hd he heq => hab e d he hd heq.symm⟩
        have hne := (List.pairwise_map.mp hnodes).forall hother hfate (by simp)
        exact absurd hnode (hne e d rfl rfl)

/-- What is reported about an input without a header. -/
theorem account_of_refused (hended : s.Ended)
    (h : ¬ ∃ name body, s.values = headerTokens name ++ body) :
    ∃ notice marker s', outcome unit none s = .error marker s' ∧
      Account [] false s.notices (.ofResult (outcome unit none s)) [] [] [notice] := by
  obtain ⟨s₁, d, span, hd, hnotices, hrun⟩ := (moduleDecl_refused maxNesting none hended h).bind
  refine ⟨.of d span, _, _, hrun, ?_⟩
  change outcome unit none s = _ at hrun
  rw [hrun, ← hnotices]
  exact .of_error hd span (by simp) .nil ⟨default, default, rfl⟩

/-- Behind a module the input ends, or else parsing fails there. -/
theorem unit_of_moduleDecl_ok {root : NodeId}
    (h : outcome (moduleDecl maxNesting) around s = .ok root s₁) :
    outcome unit around s = .ok root s₁ ∨ ∃ d span, d.isSyntax = true ∧
      outcome unit around s = .error ⟨s₁.notices.size⟩ (s₁.record d span) := by
  by_cases hkind : s₁.cursor.kind = .eof
  · left
    rw [unit, bind_of_ok h, bind_of_ok (expect_eq hkind)]
    rfl
  · right
    obtain ⟨span, hexpect⟩ := outcome_expect around hkind
    exact ⟨_, span, rfl, by rw [unit, bind_of_ok h, bind_of_error hexpect]⟩

theorem unit_of_moduleDecl_error {marker : Marker}
    (h : outcome (moduleDecl maxNesting) around s = .error marker s₁) :
    outcome unit around s = .error marker s₁ :=
  bind_of_error h

/-- What is reported about an input with a header, and which items are found in it. -/
theorem account_of_run {body : List Token} (hended : s.Ended)
    (hs : s.values = headerTokens name ++ body)
    (hrun : (Loop.ofModule maxNesting s name).Run (loopStart s name) turns s₁) :
    ∃ reports warning final,
      Account turns (s₁.cursor.kind = .symbol .closeCurly) s.notices
        (.ofResult (outcome unit none s)) reports warning final ∧
      ∀ root, (Parsed.ofResult (outcome unit none s)).result = .ok root → ∃ m span,
        (Parsed.ofResult (outcome unit none s)).store.get? root =
          some ⟨.module m, none, some span⟩ ∧
        m.items = ((fates [] (turns.map Turn.result)).filterMap Fate.item?).map Declared.node := by
  obtain ⟨header, -, hmoved⟩ := moved_loopStart hended hs
  have hempty : Enrolled (loopStart s name).store s.store.fresh name [] :=
    (Store.OpenModule.empty s.store name).node
  obtain ⟨reports, hnotices, hreports, henrolled⟩ :=
    hrun.turns.reports (hmoved.ended hended) hempty fun _ => rfl
  change s₁.notices.toList = s.notices.toList ++ reports at hnotices
  rcases hrun.moduleDecl_eq none hended hs with ⟨hclose, span, hok⟩ | ⟨heof, span, hfail⟩
  · rw [decide_eq_true hclose]
    have hnotices₂ := finish_notices s.store.fresh name span turns.isEmpty s₁.advance
    have hstore₂ := finish_store s.store.fresh name span turns.isEmpty s₁.advance
    rw [State.notices_advance] at hnotices₂
    rw [State.store_advance] at hstore₂
    generalize finish s.store.fresh name span turns.isEmpty s₁.advance = s₂ at *
    have hreports₂ := hreports.imp fun fate notice hreport => hnotices₂ ▸ hreport.append _
    rw [hnotices, List.append_assoc] at hnotices₂
    rcases unit_of_moduleDecl_ok hok with hunit | ⟨d, span', hd, hunit⟩
    · rw [hunit]
      refine ⟨reports, _, [], ⟨?_, hreports₂, ⟨name, span, rfl⟩, rfl⟩, fun root hroot => ?_⟩
      · rw [List.append_nil]
        exact hnotices₂
      · cases hroot
        obtain ⟨m, hget, hitems⟩ := henrolled.get?_setSpan span
        exact ⟨m, span, (congrArg (Store.get? · s.store.fresh) hstore₂).trans hget, hitems⟩
    · rw [hunit]
      exact ⟨reports, _, _, .of_error hd span' hnotices₂ hreports₂ ⟨name, span, rfl⟩,
        fun root hroot => by cases hroot⟩
  · rw [unit_of_moduleDecl_error hfail, decide_eq_false (by simp [heof])]
    exact ⟨reports, [], _, .of_error rfl span (by rw [List.append_nil]; exact hnotices) hreports
      ⟨name, span, rfl⟩, fun root hroot => by cases hroot⟩

end Account

/-- **Every failure is reported once, and nothing is dropped without a report.**  The notices that
parsing adds are one for each attempt at a declaration that fails or repeats a name, a warning if
the module is closed without any attempt, and one if parsing fails as a whole, which is the last.
If it does not, then the items of the module are the attempts that neither failed nor repeated a
name, and no error is among the notices exactly if every attempt became an item. -/
theorem parseModule_reports (tokens : List (Located Token)) (store : Store) (notices : Notices)
    (heof : (tokens.map Located.value).getLast? = some .eof) :
    ∃ cursor parsed turns closed reports warning final,
      Cursor.ofTokens tokens = .ok cursor ∧ parseModule tokens store notices = .ok parsed ∧
      Attempted (.start cursor store notices) turns closed ∧
      Account turns closed notices parsed reports warning final ∧
      (reports ++ warning ++ final).length =
        (fates [] (turns.map Turn.result)).countP Fate.isFailed +
        (fates [] (turns.map Turn.result)).countP Fate.isRepeated +
        (if closed && turns.isEmpty then 1 else 0) +
        (match parsed.result with | .ok _ => 0 | .error _ => 1) ∧
      ∀ root, parsed.result = .ok root → ∃ m span,
        parsed.store.get? root = some ⟨.module m, none, some span⟩ ∧
        m.items = ((fates [] (turns.map Turn.result)).filterMap Fate.item?).map Declared.node ∧
        ((∀ notice ∈ reports ++ warning ++ final, notice.isError = false) ↔
          ∀ turn ∈ turns, ∃ declared, turn.result = .ok declared ∧ declared.node ∈ m.items) := by
  obtain ⟨cursor, hcursor⟩ := exists_ofTokens heof
  obtain ⟨-, -, hended⟩ := start_of_ofTokens store notices hcursor
  by_cases hheader : ∃ name body,
      (State.start cursor store notices).values = headerTokens name ++ body
  swap
  · obtain ⟨notice, marker, s', hrun, haccount⟩ := account_of_refused hended hheader
    refine ⟨cursor, _, [], false, [], [], [notice], hcursor, parseModule_eq hcursor,
      .refused hheader, haccount, haccount.length_eq, fun root hroot => ?_⟩
    rw [hrun] at hroot
    cases hroot
  obtain ⟨name, body, hvalues⟩ := hheader
  obtain ⟨header, -, hmoved⟩ := moved_loopStart hended hvalues
  obtain ⟨turns, s₁, hrun⟩ := Loop.exists_run
    (Loop.ofModule maxNesting (.start cursor store notices) name) (hmoved.ended hended)
  obtain ⟨reports, warning, final, haccount, hitems⟩ := account_of_run hended hvalues hrun
  refine ⟨cursor, _, turns, _, reports, warning, final, hcursor, parseModule_eq hcursor,
    .entered hvalues hrun, haccount, haccount.length_eq, fun root hroot => ?_⟩
  obtain ⟨m, span, hget, hm⟩ := hitems root hroot
  have hnodes := (hrun.turns.pairwise_node_ne (hmoved.ended hended)).2
  refine ⟨m, span, hget, hm, ?_⟩
  rw [hm, haccount.clean_iff hroot, reports_eq_nil_iff haccount.reports hnodes]
  exact List.forall_mem_map

/-- A module with a declaration that fails, one that becomes an item, and one that repeats its
name. -/
theorem parseModule_reports_of_mixed :
    let tokens : List (Located Token) := [.keyword .module, .ident ⟨"m"⟩, .symbol .openCurly,
      .keyword .struct, .symbol .semicolon, .keyword .struct, .ident ⟨"s"⟩, .symbol .openCurly,
      .symbol .closeCurly, .keyword .struct, .ident ⟨"S"⟩, .symbol .openCurly, .symbol .closeCurly,
      .symbol .closeCurly, .eof].map fun t => ⟨t, default⟩
    (tokens.map Located.value).getLast? = some .eof ∧
    ∃ parsed root m span turns closed reports warning final,
      parseModule tokens ⟨#[]⟩ #[] = .ok parsed ∧ parsed.result = .ok root ∧
      parsed.store.get? root = some ⟨.module m, none, some span⟩ ∧
      Account turns closed #[] parsed reports warning final ∧
      (reports ++ warning ++ final).length = 2 ∧
      ¬ ∀ turn ∈ turns, ∃ declared, turn.result = .ok declared ∧ declared.node ∈ m.items := by
  intro tokens
  refine ⟨rfl, ?_⟩
  obtain ⟨cursor, parsed, turns, closed, reports, warning, final, -, hparsed, -, haccount, -,
    hitems⟩ := parseModule_reports tokens ⟨#[]⟩ #[] rfl
  have hrun : ∃ root s, parsed = .ofResult (.ok root s) ∧ s.notices.toList.map Notice.isError =
      [true, true] := by
    cases hparsed
    exact ⟨_, _, rfl, rfl⟩
  obtain ⟨root, s, rfl, herrors⟩ := hrun
  obtain ⟨m, span, hget, -, hclean⟩ := hitems root rfl
  have hnotices := haccount.notices
  rw [List.nil_append] at hnotices
  change s.notices.toList = _ at hnotices
  rw [hnotices] at herrors
  refine ⟨_, root, m, span, turns, closed, reports, warning, final, hparsed, rfl, hget, haccount,
    ?_, fun hall => ?_⟩
  · simpa using congrArg List.length herrors
  · obtain ⟨notice, rest, hlist, herror, -⟩ := List.map_eq_cons_iff.mp herrors
    have hno := hclean.mpr hall notice (by simp [hlist])
    rw [herror] at hno
    cases hno

end FrontEnd.Grammar
