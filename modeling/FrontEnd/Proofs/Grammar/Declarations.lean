import FrontEnd.Proofs.Grammar.Statements

/-!
# Reading declarations

The productions for prototypes and declarations read exactly what the grammar of
declarations allows, whatever follows.  The item that a declaration gives has the name
of the declaration, and its span runs from behind the attributes to the last token.

## Main definitions

* `ItemOf`, `PlantsItem`: an item with its declaration, read and planted.

## Main statements

* `complete_declaration`, `plants_declaration`.
-/

namespace FrontEnd.Grammar

open Phrase Store

variable {α β : Type} {s s' s₁ s₂ : State} {t next : Token} {ts us rest : List Token}
  {around : Option Position} {store : Store} {before params : List Param} {scope : Scope} {n : Nat}
  {name : Ident} {proto : Proto} {ids : List NodeId}

/-! ## Parameters -/

/-- A name may go after others in a list of parameters with distinct names only if it is
new. -/
theorem names_new_of_distinct {param : Param}
    (h : DistinctNames ((before ++ param :: params).map Param.name)) :
    ∀ n ∈ before.map Param.name, n.same param.name = false := by
  have hsplit : (before ++ param :: params).map Param.name =
      (before.map Param.name ++ [param.name]) ++ params.map Param.name := by simp
  exact (distinctNames_append_singleton.mp (hsplit ▸ h).of_append_left).2

/-- A type and a name, read into a scope that lacks the name. -/
theorem Reads.param {f : Located Ident → NodeId → Parser β} {fine : β → State → Prop}
    {param : Param} (hopen : OpenScope store s.store before scope)
    (hdistinct : DistinctNames ((before ++ param :: params).map Param.name))
    (hs : s.values = param.tokens ++ next :: rest)
    (hf : ∀ {span id s₁}, OpenScope store s₁.store (before ++ [param]) (scope.append param.name id) →
      scope.insert param.name id = .ok (scope.append param.name id) → s₁.values = next :: rest →
      Reads (f ⟨param.name, span⟩ id) around s₁ ts fine) :
    Reads (do let type ← typeRef; let name ← Grammar.ident; f name type) around s
      (param.tokens ++ ts) fine := by
  have hs' : s.values = [param.type.token] ++ .ident param.name :: next :: rest := hs
  change Reads _ _ _ ([param.type.token] ++ .ident param.name :: ts) _
  refine .bind (complete_typeRef around rfl hs' trivial) hs' fun id s₁ hplant hs₁ => ?_
  refine .ident hs₁ fun hs₂ span => hf (hopen.append hplant param.name) ?_ hs₂
  exact Scope.insert_eq_ok_iff.mpr
    ⟨hopen.lookup_eq_none_iff.mpr (names_new_of_distinct hdistinct), rfl⟩

theorem reads_argumentList (around : Option Position) (function : Ident) {variadic : Bool}
    (hparams : ParamTokens ts params variadic) (hn : params.length < n)
    (hopen : OpenScope store s.store before scope)
    (hdistinct : DistinctNames ((before ++ params).map Param.name))
    (hs : s.values = ts ++ .symbol .closeParen :: rest) :
    Reads (argumentList function n scope) around s ts fun list s' =>
      list.variadic = variadic ∧ OpenScope store s'.store (before ++ params) list.scope := by
  obtain ⟨n, rfl⟩ : ∃ k, n = k + 1 := Nat.exists_eq_add_one.mpr (by omega)
  induction hparams generalizing n s before scope with
  | ellipsis =>
    exact .ifSymbol hs (.advance hs fun _ => .pure ⟨rfl, by simpa using hopen⟩)
  | last param =>
    rw [← List.append_nil param.tokens]
    refine .unlessSymbol hs (param.type.token_ne_symbol _) (.param hopen hdistinct hs
      fun hopen' hinsert hs₁ => ?_)
    simp only [hinsert]
    exact .unlessSymbol hs₁ (by simp) (.pure ⟨rfl, hopen'⟩)
  | @cons us params variadic param _ ih =>
    rw [List.append_assoc, List.cons_append] at hs
    refine .unlessSymbol hs (param.type.token_ne_symbol _) (.param hopen hdistinct hs
      fun {_ _ s₁} hopen' hinsert hs₁ => ?_)
    simp only [hinsert]
    refine .ifSymbol hs₁ (.advance hs₁ fun hs₂ => ?_)
    obtain ⟨n, rfl⟩ : ∃ k, n = k + 1 := Nat.exists_eq_add_one.mpr (by simp at hn; omega)
    simpa using ih (s := s₁.advance) hopen' (by simpa using hdistinct) hs₂ n (by simpa using hn)

/-- The parameters of a function are read whatever follows them. -/
theorem complete_arguments (function : Ident) :
    Complete (arguments function) ArgumentTokens ArgumentsAt fun _ => True := by
  intro around s ts next rest params hparams hs _
  cases hparams with
  | none =>
    exact .node (.symbol hs fun hs₁ => .ifSymbol hs₁ (.pure_bind (.symbol hs₁ fun _ =>
      .pure (planted_arguments (.nil s.store) false))))
  | @some us params variadic hparams hdistinct =>
    have hs' : s.values = .symbol .openParen :: (us ++ .symbol .closeParen :: next :: rest) := by
      simpa using hs
    refine .node (.symbol hs' fun hs₁ => ?_)
    have hfuel : params.length < s.advance.cursor.ahead.length + 1 := by
      have hle := hparams.length_le
      rw [State.ahead_length, hs₁, List.length_append, List.length_cons]
      omega
    have hread := reads_argumentList (s := s.advance) (some s.cursor.current.span.start) function
      hparams hfuel (.empty s.store) hdistinct hs₁
    obtain ⟨t, us', rfl, hclose⟩ := hparams.exists_cons
    refine .unlessSymbol hs₁ hclose (.of_eq tokensAhead_bind (.bind hread hs₁ ?_))
    rintro ⟨scope, _⟩ s₂ ⟨rfl, hopen⟩ hs₂
    obtain ⟨ids, hplant, rfl⟩ := hopen.planted
    exact .symbol hs₂ fun _ => .pure (planted_arguments hplant _)

/-- The result of a function is read up to a token that is no arrow. -/
theorem complete_returnType :
    Complete returnType ResultTokens TypeAt (· ≠ .symbol .arrow) := by
  intro around s ts next rest result hresult hs hnext
  cases hresult with
  | void =>
    exact .unlessSymbol hs hnext ⟨s.store.fresh, _, rfl, (Passes.refl s).withStore _,
      planted_leaf (fun type : TypeName => .typeRef type.ref) (.prim .void) s.store
        s.cursor.lastSpan rfl⟩
  | written type =>
    exact .ifSymbol hs (.advance hs fun hs₁ => complete_typeRef around rfl hs₁ trivial)

/-! ## Items -/

/-- An item has a name, and a span from one state to another. -/
structure ItemOf (name : Ident) (s s' : State) (item : Declared) : Prop where
  name_eq : item.name = name
  span_eq : item.span = ⟨s.cursor.current.span.start, s'.cursor.lastSpan.stop⟩

/-- The node of an item is added after its production succeeded. -/
theorem Reads.declaring {rule : Parser (Ident × Construct)} {At : Placing α} {a : α}
    (h : Reads rule (some s.cursor.current.span.start) s ts fun named s₁ => named.1 = name ∧
      ∀ span, Planted At store (s₁.store.build named.2 (some span)).2 a s₁.store.fresh) :
    Reads (declaring rule) around s ts fun item s' =>
      ItemOf name s s' item ∧ Planted At store s'.store a item.node := by
  obtain ⟨⟨_, c⟩, s₁, hrun, hpass, rfl, hplant⟩ := h
  rw [Reads, Grammar.declaring, bind_of_ok (mapped_of_ok hrun)]
  exact ⟨_, _, rfl, hpass.withStore _, ⟨rfl, rfl⟩, hplant _⟩

/-- A prototype is read up to a token that is no arrow. -/
theorem reads_prototype (hproto : PrototypeTokens ts proto)
    (hs : s.values = ts ++ next :: rest) (hnext : next ≠ .symbol .arrow) :
    Reads prototype around s ts fun item s' =>
      ItemOf proto.name s s' item ∧ Planted ProtoAt s.store s'.store proto item.node := by
  cases hproto with
  | @mk us vs params variadic result name hparams hresult =>
    have hs' : s.values = .ident name :: (us ++ (vs ++ next :: rest)) := by simpa using hs
    obtain ⟨next', rest', hcons⟩ : ∃ next' rest', vs ++ next :: rest = next' :: rest' :=
      List.exists_cons_of_ne_nil (by simp)
    refine .declaring (.ident hs' fun hs₁ _ => .bind
      (complete_arguments name _ hparams (hcons ▸ hs₁) trivial) hs₁ fun _ _ hlist hs₂ => ?_)
    exact .last (complete_returnType _ hresult hs₂ hnext) hs₂ fun _ _ htype _ =>
      .pure ⟨rfl, planted_proto hlist htype name⟩

theorem reads_function {room : Nat} {attributes : List Ident} {body : List Stmt}
    (hattributes : PlantedList AttrAt store s.store attributes ids)
    (hproto : PrototypeTokens ts proto) (hbody : BlockTokens room us body)
    (hs : s.values = .keyword .fn :: (ts ++ (us ++ next :: rest))) :
    Reads (function room ids) around s (.keyword .fn :: (ts ++ us)) fun item s' =>
      ItemOf proto.name s s' item ∧
        Planted DeclAt store s'.store (.function attributes proto body) item.node := by
  refine .declaring (.keyword hs fun hs₁ => ?_)
  obtain ⟨us', hcurly⟩ := hbody.exists_cons
  have hs₁' : s.advance.values = ts ++ .symbol .openCurly :: (us' ++ next :: rest) := by
    simpa [hcurly] using hs₁
  refine .bind (reads_prototype hproto hs₁' (by simp)) hs₁ fun f _ hf hs₂ => ?_
  exact .last (complete_block room _ hbody hs₂ trivial) hs₂ fun _ _ hplant _ =>
    .pure ⟨hf.1.name_eq, planted_function hattributes hf.2 ⟨hplant.grown, hplant.placed⟩⟩

theorem reads_external {attributes : List Ident}
    (hattributes : PlantedList AttrAt store s.store attributes ids)
    (hproto : PrototypeTokens ts proto)
    (hs : s.values =
      .keyword .external :: .keyword .fn :: (ts ++ .symbol .semicolon :: next :: rest)) :
    Reads (external ids) around s
      (.keyword .external :: .keyword .fn :: (ts ++ [.symbol .semicolon])) fun item s' =>
        ItemOf proto.name s s' item ∧
          Planted DeclAt store s'.store (.external attributes proto) item.node :=
  .declaring (.keyword hs fun hs₁ => .keyword hs₁ fun hs₂ =>
    .bind (reads_prototype hproto hs₂ (by simp)) hs₂ fun _ _ hf hs₃ =>
      .symbol hs₃ fun _ => .pure ⟨hf.1.name_eq, planted_external hattributes hf.2⟩)

theorem reads_global {type : TypeName} {value : Option Lit} (hvalue : InitialTokens ts value)
    (hs : s.values = .keyword .global :: type.token :: .ident name ::
      (ts ++ .symbol .semicolon :: next :: rest)) :
    Reads global around s
      (.keyword .global :: type.token :: .ident name :: (ts ++ [.symbol .semicolon]))
      fun item s' => ItemOf name s s' item ∧
        Planted DeclAt s.store s'.store (.global type name value) item.node := by
  refine .declaring (.keyword hs fun hs₁ => ?_)
  have hs₁' : s.advance.values = [type.token] ++ .ident name ::
      (ts ++ .symbol .semicolon :: next :: rest) := hs₁
  refine .bind (complete_typeRef _ rfl hs₁' trivial) hs₁' fun t s₂ ht hs₂ =>
    .ident hs₂ fun hs₃ _ => ?_
  cases hvalue with
  | none =>
    exact .unlessSymbol hs₃ (by simp) (.pure_bind (.symbol hs₃ fun _ =>
      .pure ⟨rfl, @planted_global _ _ _ _ _ none none ht (.nil _) name⟩))
  | @some us l hl =>
    refine .ifSymbol hs₃ (.advance hs₃ fun hs₄ => .bind (complete_literal _ hl hs₄ trivial) hs₄
      fun v _ hv hs₅ => ?_)
    exact .pure_bind (.symbol hs₅ fun _ =>
      .pure ⟨rfl, @planted_global _ _ _ _ _ (some l) (some v) ht (.single hv) name⟩)

/-- Fields are read up to the closing brace. -/
theorem reads_fields (owner : Ident) {fields : List Param}
    (hn : fields.length ≤ n) (hopen : OpenScope store s.store before scope)
    (hdistinct : DistinctNames ((before ++ fields).map Param.name))
    (hs : s.values = fieldTokens fields ++ .symbol .closeCurly :: rest) :
    Reads (Grammar.fields owner n scope) around s (fieldTokens fields) fun scope s' =>
      OpenScope store s'.store (before ++ fields) scope := by
  induction fields generalizing n s before scope with
  | nil =>
    have hdone : OpenScope store s.store (before ++ []) scope := by simpa using hopen
    cases n with
    | zero => exact .pure hdone
    | succ n => exact .ifSymbol hs (.pure hdone)
  | cons field fields ih =>
    cases n with
    | zero => simp at hn
    | succ n =>
      have htokens : fieldTokens (field :: fields) =
          field.tokens ++ .symbol .semicolon :: fieldTokens fields := by
        simp [fieldTokens]
      rw [htokens, List.append_assoc, List.cons_append] at hs
      rw [htokens]
      refine .unlessSymbol hs (field.type.token_ne_symbol _) (.param hopen hdistinct hs
        fun {_ _ s₁} hopen' hinsert hs₁ => .symbol hs₁ fun hs₂ => ?_)
      simp only [hinsert]
      simpa using ih (s := s₁.advance) (by simpa using hn) hopen' (by simpa using hdistinct) hs₂

theorem length_fieldTokens (fields : List Param) :
    (fieldTokens fields).length = 3 * fields.length := by
  induction fields with
  | nil => rfl
  | cons field fields ih =>
    simp only [fieldTokens, List.flatMap_cons, List.length_append, Param.tokens,
      List.length_cons, List.length_nil] at ih ⊢
    omega

theorem reads_struct {fields : List Param}
    (hdistinct : DistinctNames (fields.map Param.name))
    (hs : s.values = .keyword .struct :: .ident name :: .symbol .openCurly ::
      (fieldTokens fields ++ .symbol .closeCurly :: next :: rest)) :
    Reads struct around s (.keyword .struct :: .ident name :: .symbol .openCurly ::
        (fieldTokens fields ++ [.symbol .closeCurly])) fun item s' => ItemOf name s s' item ∧
      Planted DeclAt s.store s'.store (.struct name fields) item.node := by
  refine .declaring (.keyword hs fun hs₁ => .ident hs₁ fun hs₂ _ => .symbol hs₂ fun hs₃ =>
    .of_eq tokensAhead_bind ?_)
  have hfuel : fields.length ≤ s.advance.advance.advance.cursor.ahead.length + 1 := by
    rw [State.ahead_length, hs₃, List.length_append, length_fieldTokens]
    omega
  refine .bind (reads_fields name hfuel (.empty s.store) hdistinct hs₃) hs₃
    fun _ _ hopen hs₄ => ?_
  obtain ⟨ids, hplant, rfl⟩ := hopen.planted
  exact .symbol hs₄ fun _ => .pure ⟨rfl, planted_struct hplant name⟩

/-! ## Attributes -/

theorem length_attributeTokens (attributes : List Ident) :
    (attributeTokens attributes).length = 2 * attributes.length := by
  induction attributes with
  | nil => rfl
  | cons name attributes ih =>
    simp only [attributeTokens, List.flatMap_cons, List.length_append, List.length_cons,
      List.length_nil] at ih ⊢
    omega

/-- Attributes are read up to the first token that starts none. -/
theorem reads_attributes {attributes before : List Ident} (hn : attributes.length ≤ n)
    (hbefore : PlantedList AttrAt store s.store before ids)
    (hs : s.values = attributeTokens attributes ++ next :: rest) (hnext : next ≠ .symbol .atSign) :
    Reads (Grammar.attributes n ids) around s (attributeTokens attributes) fun ids s' =>
      PlantedList AttrAt store s'.store (before ++ attributes) ids := by
  induction attributes generalizing n s before ids with
  | nil =>
    have hdone : PlantedList AttrAt store s.store (before ++ []) ids := by simpa using hbefore
    cases n with
    | zero => exact .pure hdone
    | succ n => exact .unlessSymbol hs hnext (.pure hdone)
  | cons name attributes ih =>
    cases n with
    | zero => simp at hn
    | succ n =>
      have htokens : attributeTokens (name :: attributes) =
          [.symbol .atSign, .ident name] ++ attributeTokens attributes := rfl
      rw [htokens, List.append_assoc] at hs
      rw [htokens]
      refine .ifSymbol hs (.bind (.node (.symbol hs fun hs₁ => .ident hs₁ fun _ _ =>
        .pure fun span => planted_leaf .attr name s.store span rfl)) hs fun _ _ hplant hs₂ => ?_)
      simpa using ih (by simpa using hn) (hbefore.snoc hplant) hs₂

/-! ## Declarations -/

/-- The attributes of a declaration come first, and there may be none. -/
theorem reads_leading_attributes {attributes : List Ident}
    (hs : s.values = attributeTokens attributes ++ next :: rest)
    (hnext : next ≠ .symbol .atSign) :
    Reads (Grammar.attributes (s.cursor.ahead.length + 1) []) around s (attributeTokens attributes)
      fun ids s₁ => Passes s (attributeTokens attributes) s₁ ∧
        PlantedList AttrAt s.store s₁.store attributes ids := by
  refine (reads_attributes ?_ (.nil s.store) hs hnext).with_passes
  rw [State.ahead_length, hs, List.length_append, length_attributeTokens]
  omega

theorem attributes_nil_eq (hs : s.values = next :: rest) (hnext : next ≠ .symbol .atSign) :
    outcome (Grammar.attributes (n + 1) []) around s = .ok [] s := by
  rw [Grammar.attributes, isSymbol_bind_false hs hnext]
  rfl

/-- A declaration is read whatever follows it. -/
theorem complete_declaration (room : Nat) (around : Option Position) {d : Decl}
    (hd : DeclarationTokens room ts d) (hs : s.values = ts ++ next :: rest) :
    Reads (declaration room) around s ts fun item s' =>
      (∃ s₁, Passes s (attributeTokens d.attributes) s₁ ∧ ItemOf d.name s₁ s' item) ∧
        Planted DeclAt s.store s'.store d item.node := by
  cases hd with
  | struct name fields hdistinct =>
    have hs' : s.values = .keyword .struct :: .ident name :: .symbol .openCurly ::
        (fieldTokens fields ++ .symbol .closeCurly :: next :: rest) := by
      simpa using hs
    refine .of_eq (tokensAhead_bind.trans (bind_of_ok (attributes_nil_eq hs' (by simp))))
      (.of_eq (currentKind_bind.trans (by rw [State.kind_of_values hs'])) ?_)
    exact (reads_struct hdistinct hs').imp fun _ _ h => ⟨⟨s, .refl s, h.1⟩, h.2⟩
  | @global us value type name hvalue =>
    have hs' : s.values = .keyword .global :: type.token :: .ident name ::
        (us ++ .symbol .semicolon :: next :: rest) := by
      simpa using hs
    refine .of_eq (tokensAhead_bind.trans (bind_of_ok (attributes_nil_eq hs' (by simp))))
      (.of_eq (currentKind_bind.trans (by rw [State.kind_of_values hs'])) ?_)
    exact (reads_global hvalue hs').imp fun _ _ h => ⟨⟨s, .refl s, h.1⟩, h.2⟩
  | @external us proto attributes hproto =>
    have hs' : s.values = attributeTokens attributes ++ .keyword .external :: .keyword .fn ::
        (us ++ .symbol .semicolon :: next :: rest) := by
      simpa using hs
    refine .of_eq tokensAhead_bind (.bind (reads_leading_attributes hs' (by simp)) hs'
      fun _ s₁ hattributes hs₁ => .of_eq (currentKind_bind.trans
        (by rw [State.kind_of_values hs₁])) ?_)
    exact (reads_external hattributes.2 hproto hs₁).imp fun _ _ h =>
      ⟨⟨s₁, hattributes.1, h.1⟩, h.2⟩
  | @function us vs proto body attributes hproto hbody =>
    have hs' : s.values = attributeTokens attributes ++ .keyword .fn ::
        (us ++ (vs ++ next :: rest)) := by
      simpa using hs
    refine .of_eq tokensAhead_bind (.bind (reads_leading_attributes hs' (by simp)) hs'
      fun _ s₁ hattributes hs₁ => .of_eq (currentKind_bind.trans
        (by rw [State.kind_of_values hs₁])) ?_)
    exact (reads_function hattributes.2 hproto hbody hs₁).imp fun _ _ h =>
      ⟨⟨s₁, hattributes.1, h.1⟩, h.2⟩

/-! ## Soundness -/

/-- A type and a name after what was read before them. -/
theorem Reached.param {f : Located Ident → NodeId → Parser β} {fine : β → State → Prop}
    (h : Reached s ts s₁)
    (hf : ∀ (param : Param) {span : Span} {id : NodeId} {s₂ : State},
      Planted TypeAt s₁.store s₂.store param.type id → s₂.values.length < s₁.values.length →
      Reached s (ts ++ param.tokens) s₂ → Ends (f ⟨param.name, span⟩ id) around s₂ fine (Spoilt s)) :
    Ends (do let type ← typeRef; let name ← Grammar.ident; f name type) around s₁ fine
      (Spoilt s) := by
  refine h.bind (plants_typeRef around h.ended) ?_
  rintro id us s₂ ⟨type, rfl, hplant⟩ hstep hread
  refine hread.ident fun name hname hread' => ?_
  refine hf ⟨type, name⟩ hplant ?_ (by simpa [Param.tokens] using hread')
  have hvalues := s₂.values_eq
  rw [hname] at hvalues
  have hlength := (hstep.advance hvalues (by simp)).passes.length_le
  simp at hlength
  omega

theorem ends_argumentList (function : Ident) (hn : s₁.values.length ≤ n) (hread : Reached s ts s₁)
    (hscope : OpenScope store s₁.store before scope)
    (hdistinct : DistinctNames (before.map Param.name)) :
    Ends (argumentList function n scope) around s₁
      (fun list s' => ∃ us params, Reached s (ts ++ us) s' ∧
        ParamTokens us params list.variadic ∧ OpenScope store s'.store (before ++ params) list.scope ∧
        DistinctNames ((before ++ params).map Param.name)) (Spoilt s) := by
  induction n generalizing s₁ ts before scope with
  | zero => exact absurd hn (by simp [State.values_eq])
  | succ n ih =>
    rw [argumentList]
    refine hread.ifSymbol (fun hread' _ => ⟨_, [], hread', .ellipsis, by simpa using hscope,
      by simpa using hdistinct⟩) ?_
    refine hread.param fun param {span id _} hplant hless hread' => ?_
    cases hinsert : scope.insert param.name id with
    | error _ => exact spoilt_record hread' rfl span
    | ok scope' =>
      obtain ⟨hscope', hdistinct'⟩ := hscope.insert hdistinct hplant hinsert
      refine hread'.ifSymbol (fun hnext hless' => ?_)
        ⟨_, [param], hread', .last param, hscope', hdistinct'⟩
      refine (ih (by omega) hnext hscope' hdistinct').imp ?_ fun _ hbad => hbad
      rintro list s' ⟨us, params, hus, hparams, hlist⟩
      exact ⟨_, param :: params, by simpa using hus, .cons param hparams, by simpa using hlist⟩

theorem plants_arguments (function : Ident) :
    Plants (arguments function) ArgumentTokens ArgumentsAt := by
  refine plants_node fun around s hs => (Reached.refl hs).symbol fun _ hopen => ?_
  refine ends_isSymbol (fun _ => ?_) ?_
  · exact hopen.symbol fun _ hclose => ⟨_, hclose, _, .none, planted_arguments (.nil s.store) false⟩
  · rw [if_neg (by simp), ends_of_eq tokensAhead_bind, ends_bind]
    refine (ends_argumentList function (Nat.le_of_eq (State.ahead_length _).symm) hopen
      (.empty s.store) (by simp)).imp ?_ fun _ hbad => hbad
    rintro ⟨scope, variadic⟩ s₁ ⟨us, params, hread, hparams, hscope, hdistinct⟩
    obtain ⟨ids, hplant, rfl⟩ := hscope.planted
    exact hread.symbol fun _ hclose => ⟨_, by simpa using hclose, _, .some hparams hdistinct,
      planted_arguments hplant variadic⟩

theorem plants_returnType : Plants returnType ResultTokens TypeAt := by
  intro around s hs
  have hstart := Reached.refl hs
  refine ends_isSymbol (fun hcurrent => ?_) ?_
  · have harrow := hstart.advance s.values_eq (by simp [hcurrent])
    rw [hcurrent] at harrow
    rw [if_pos rfl, ends_of_eq advance_bind]
    refine (plants_typeRef around harrow.ended).imp ?_ fun _ => harrow.spoilt
    rintro id s' ⟨us, hread, type, rfl, hplant⟩
    exact ⟨_, harrow.trans hread, type, .written type, hplant⟩
  · have hplant := planted_leaf (fun type : TypeName => .typeRef type.ref) (.prim .void) s.store
      s.cursor.lastSpan rfl
    exact ⟨[], ⟨hstart.passes.withStore _, hplant.grown, hs⟩, .prim .void, .void, hplant⟩

/-- After what was read from `s` on, a production plants an item; a failure is as failures are. -/
def PlantsItem (p : Parser Declared) (around : Option Position) (s s₁ : State)
    (Written : List Token → α → Prop) (At : Placing α) : Prop :=
  Ends p around s₁ (fun item s' => ∃ ts, Reached s ts s' ∧ ∃ a, Written ts a ∧
    Planted At s.store s'.store a item.node) (Spoilt s)

theorem plantsItem_declaring {rule : Parser (Ident × Construct)} {Written : List Token → α → Prop}
    {At : Placing α} (h : Ends rule (some s₁.cursor.current.span.start) s₁
      (fun named s' => ∃ ts, Reached s ts s' ∧ ∃ a, Written ts a ∧
        ∀ span, Planted At s.store (s'.store.build named.2 (some span)).2 a s'.store.fresh)
      (Spoilt s)) :
    PlantsItem (declaring rule) around s s₁ Written At := by
  rw [PlantsItem, declaring, ends_bind, ends_mapped]
  refine h.imp ?_ fun _ hbad => hbad
  rintro named s₂ ⟨ts, hread, a, ha, hplant⟩
  exact ⟨ts, ⟨hread.passes.withStore _, (hplant _).grown, hread.ended⟩, a, ha, hplant _⟩

theorem plantsItem_prototype (hs : s.Ended) :
    PlantsItem prototype around s s PrototypeTokens ProtoAt := by
  refine plantsItem_declaring ((Reached.refl hs).ident fun name _ hname => ?_)
  refine hname.bind (plants_arguments name _ hname.ended) ?_
  rintro list us s₁ ⟨⟨params, variadic⟩, hparams, hlist⟩ - hread
  refine hread.bind (plants_returnType _ hread.ended) ?_
  rintro type vs s₂ ⟨result, hresult, htype⟩ - hread'
  exact ⟨_, by simpa using hread', _, .mk name hparams hresult, planted_proto hlist htype name⟩

theorem ends_fields (owner : Ident) (hn : s₁.values.length ≤ n) (hread : Reached s ts s₁)
    (hscope : OpenScope store s₁.store before scope)
    (hdistinct : DistinctNames (before.map Param.name)) : Ends (fields owner n scope) around s₁
      (fun scope s' => ∃ more, Reached s (ts ++ fieldTokens more) s' ∧
        OpenScope store s'.store (before ++ more) scope ∧
        DistinctNames ((before ++ more).map Param.name)) (Spoilt s) := by
  induction n generalizing s₁ ts before scope with
  | zero => exact absurd hn (by simp [State.values_eq])
  | succ n ih =>
    rw [fields]
    refine ends_isSymbol (fun _ => ?_) ?_
    · exact ⟨[], by simpa [fieldTokens] using hread, by simpa using hscope, by simpa using hdistinct⟩
    · rw [if_neg (by simp)]
      refine hread.param fun field {span id s₂} hplant hless hread' => ?_
      refine hread'.symbol fun _ hnext => ?_
      cases hinsert : scope.insert field.name id with
      | error _ => exact spoilt_record hnext rfl span
      | ok scope' =>
        obtain ⟨hscope', hdistinct'⟩ := hscope.insert hdistinct hplant hinsert
        have hlength := hnext.passes.length_le
        have hlength' := hread'.passes.length_le
        refine (ih (by simp at hlength hlength'; omega) hnext hscope' hdistinct').imp ?_
          fun _ hbad => hbad
        rintro scope s' ⟨more, hmore, hnew⟩
        exact ⟨field :: more, by simpa [fieldTokens] using hmore, by simpa using hnew⟩

section Items

variable {room : Nat} {ids : List NodeId}

/-- What is planted behind nothing but new nodes is planted with them. -/
theorem PlantsItem.after {p : Parser Declared} {Written : List Token → α → Prop} {At : Placing α}
    [Framed At] (h : PlantsItem p around s₁ s₁ Written At) (hread : Reached s [] s₁) :
    PlantsItem p around s s₁ Written At := by
  refine Ends.imp h ?_ fun _ => hread.spoilt
  rintro item s' ⟨ts, hreached, a, ha, hplant⟩
  exact ⟨ts, hread.trans hreached, a, ha, hread.grown.trans hplant.grown,
    Framed.widen hplant.placed hread.grown.size_le (Nat.le_refl _)⟩

theorem plantsItem_struct (hs : s.Ended) :
    PlantsItem struct around s s (DeclarationTokens room) DeclAt := by
  refine plantsItem_declaring ((Reached.refl hs).keyword fun hstruct => hstruct.ident fun name _ hname =>
    hname.symbol fun _ hopen => ?_)
  rw [ends_of_eq tokensAhead_bind, ends_bind]
  refine (ends_fields name (Nat.le_of_eq (State.ahead_length _).symm) hopen (.empty s.store)
    (by simp)).imp ?_ fun _ hbad => hbad
  rintro scope s₂ ⟨fields, hread, hscope, hdistinct⟩
  obtain ⟨ids, hplant, rfl⟩ := hscope.planted
  exact hread.symbol fun _ hclose => ⟨_, hclose, _,
    by simpa using DeclarationTokens.struct name fields hdistinct,
    planted_struct hplant name⟩

theorem plantsItem_global (hs : s.Ended) :
    PlantsItem global around s s (DeclarationTokens room) DeclAt := by
  refine plantsItem_declaring ((Reached.refl hs).keyword fun hglobal => ?_)
  refine hglobal.param fun param {span id s₂} htype _ hread => ?_
  refine hread.ifSymbol (fun hassign _ => ?_) ?_
  · refine hassign.bind (plants_literal _ hassign.ended) ?_
    rintro v us s₃ ⟨l, hl, hplant⟩ - hread'
    exact hread'.symbol fun _ hend => ⟨_, hend, _,
      by simpa [Param.tokens] using DeclarationTokens.global param.type param.name (.some hl),
      @planted_global _ _ _ _ _ (some l) (some v) htype (.single hplant) param.name⟩
  · exact hread.symbol fun _ hend => ⟨_, hend, _,
      by simpa [Param.tokens] using DeclarationTokens.global param.type param.name .none,
      @planted_global _ _ _ _ _ none none htype (.nil _) param.name⟩

section Attributes

variable {attributes : List Ident} (hread : Reached s (attributeTokens attributes) s₁)
  (hattributes : PlantedList AttrAt s.store s₁.store attributes ids)
include hread hattributes

theorem plantsItem_external :
    PlantsItem (external ids) around s s₁ (DeclarationTokens room) DeclAt := by
  refine plantsItem_declaring (hread.keyword fun hexternal => hexternal.keyword fun hfn => ?_)
  refine hfn.bind (plantsItem_prototype hfn.ended) ?_
  rintro f us s₂ ⟨proto, hp, hplant⟩ - hproto
  exact hproto.symbol fun _ hend => ⟨_, hend, _,
    by simpa using DeclarationTokens.external attributes hp, planted_external hattributes hplant⟩

theorem plantsItem_function :
    PlantsItem (function room ids) around s s₁ (DeclarationTokens room) DeclAt := by
  refine plantsItem_declaring (hread.keyword fun hfn => ?_)
  refine hfn.bind (plantsItem_prototype hfn.ended) ?_
  rintro f us s₂ ⟨proto, hp, hplant⟩ - hproto
  refine hproto.bind (plants_block room _ hproto.ended) ?_
  rintro b vs s₃ ⟨body, hbody, hplant'⟩ - hend
  exact ⟨_, hend, _, by simpa using DeclarationTokens.function attributes hp hbody,
    planted_function hattributes hplant ⟨hplant'.grown, hplant'.placed⟩⟩

end Attributes

theorem ends_attributes {n : Nat} (hn : s₁.values.length ≤ n) {before : List Ident}
    (hread : Reached s (attributeTokens before) s₁)
    (hbefore : PlantedList AttrAt s.store s₁.store before ids) : Ends (attributes n ids) around s₁
      (fun ids s' => ∃ attributes, Reached s (attributeTokens attributes) s' ∧
        PlantedList AttrAt s.store s'.store attributes ids) (Spoilt s) := by
  induction n generalizing s₁ before ids with
  | zero => exact absurd hn (by simp [State.values_eq])
  | succ n ih =>
    rw [attributes]
    refine ends_isSymbol (fun _ => ?_) ⟨before, hread, hbefore⟩
    have hattr : Plants (node do
        symbol .atSign
        return .attr (← ident).value) (fun ts (name : Ident) =>
          ts = [.symbol .atSign, .ident name]) AttrAt :=
      plants_node fun around s hs => (Reached.refl hs).symbol fun _ hat =>
        hat.ident fun name _ hname => ⟨_, hname, name, rfl, fun span =>
          planted_leaf .attr name s.store span rfl⟩
    refine hread.bind (hattr around hread.ended) ?_
    rintro id us s₂ ⟨name, rfl, hplant⟩ hstep hread'
    have hpassed := hstep.passes.length_le
    have hmore : attributeTokens (before ++ [name]) =
        attributeTokens before ++ [.symbol .atSign, .ident name] := by
      simp [attributeTokens]
    exact ih (by simp at hpassed; omega) (hmore ▸ hread') (hbefore.snoc hplant)

/-- What is read as a declaration is written as one. -/
theorem plants_declaration (room : Nat) (around : Option Position) (hs : s.Ended) :
    PlantsItem (declaration room) around s s (DeclarationTokens room) DeclAt := by
  rw [PlantsItem, declaration, ends_of_eq tokensAhead_bind, ends_bind]
  have hstart : Reached s (attributeTokens []) s := .refl hs
  refine (ends_attributes (Nat.le_of_eq s.ahead_length.symm) hstart (.nil s.store)).imp ?_
    fun _ hbad => hbad
  rintro ids s₁ ⟨attributes, hread, hplant⟩
  rw [ends_of_eq currentKind_bind]
  split
  · exact plantsItem_function hread hplant
  · exact plantsItem_external hread hplant
  · by_cases hnil : ids = []
    · obtain rfl : attributes = [] := by
        rw [← List.length_eq_zero_iff, ← hplant.placed.length_eq, hnil]
        rfl
      rw [if_neg (by simp [hnil])]
      split
      · exact (plantsItem_global hread.ended).after hread
      · exact (plantsItem_struct hread.ended).after hread
      · exact hread.fail rfl
    · rw [if_pos hnil]
      exact hread.fail rfl

end Items

end FrontEnd.Grammar
