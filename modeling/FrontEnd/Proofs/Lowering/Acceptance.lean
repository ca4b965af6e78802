import FrontEnd.Proofs.Grammar.Printing
import FrontEnd.Proofs.Lowering.Modules

/-!
# Which modules are lowered

A module that was parsed is lowered into an empty program if and only if its tree is well
formed, a condition in which the order of the declarations plays no part.  An error is
about a node of the tree, at the span of that node: a name is unresolved only where it
means nothing, and no function or global is ever taken for another of its module.

## Main definitions

* `Represents`: the literals of a type.
-/

namespace FrontEnd.Lowering

open Grammar Phrase Store

variable {s : Store} {m : Phrase.Module} {root : NodeId} {ids : List NodeId}
  {tokens : List (Located Token)} {store : Store} {notices : Notices} {parsed : Parsed}

/-! ## Literals of a type -/

/-- A literal is a value of a type. -/
def Represents : Literal → Ty → Prop
  | .int value _, .prim (.int width) => fitsSigned width.bits value = true
  | .bool _, .prim .bool => True
  | .char _, .prim .char => True
  | _, _ => False

/-- An integer that fits any width is taken for a width if it is in the range of it. -/
theorem fitsWidth_bits (width : Width) {value : Int} (h : fitsSigned 64 value = true) :
    fitsWidth width.bits value = fitsSigned width.bits value := by
  cases width with
  | w64 =>
    rw [Width.bits, h]
    rfl
  | _ => rfl

/-- What lowering takes as an initial value is a value of the type. -/
theorem coerces_iff {l : Literal} (hrange : ∀ value width, l = .int value width →
    fitsSigned 64 value = true) (ty : Ty) : Coerces l ty ↔ Represents l ty := by
  cases ty with
  | struct own item =>
    have hnone : ¬ Coerces l (.struct own item) := by
      intro h
      obtain ⟨init, hinit⟩ := h
      rw [codeType, coerce_struct] at hinit
      cases hinit
    cases l <;> simp [hnone, Represents]
  | prim prim =>
    cases l with
    | int value width =>
      cases prim with
      | int declared =>
        rw [Represents, ← fitsWidth_bits declared (hrange value width rfl), Coerces, codeType,
          constantOf, coerce]
        cases fitsWidth declared.bits value with
        | true => simp
        | false => simp
      | _ => simp [Coerces, codeType, constantOf, coerce, Represents, Code.Constant.ty]
    | bool value =>
      cases prim <;> simp [Coerces, codeType, constantOf, coerce, Represents, Code.Constant.ty]
    | char value =>
      cases prim <;> simp [Coerces, codeType, constantOf, coerce, Represents, Code.Constant.ty]

/-- An integer token can be negated. -/
theorem fitsSigned_of_le_maxInteger {n : Nat} (h : n ≤ maxInteger) :
    fitsSigned 64 n = true ∧ fitsSigned 64 (-n) = true := by
  have hmax : maxInteger = 9223372036854775807 := rfl
  have hpow : Int.pow 2 (64 - 1) = 9223372036854775808 := rfl
  simp only [fitsSigned, hpow, Bool.and_eq_true, decide_eq_true_eq]
  omega

/-- The initial value of a global is a literal of its tokens, and in their range. -/
theorem fitsSigned_of_tokens {room : Nat} {ts : List Token} {type : TypeName} {name : Ident}
    {value : Option Lit} (h : DeclarationTokens room ts (.global type name value))
    (hrange : ∀ n, Token.integer n ∈ ts → n ≤ maxInteger) {l : Lit} (hl : l ∈ value) {v : Int}
    {w : Width} (hsized : l.sized = .int v w) : fitsSigned 64 v = true := by
  cases h with
  | @global ts _ _ _ hinitial =>
    cases hinitial with
    | none => cases hl
    | @some us l' hliteral =>
      cases hl
      cases hliteral with
      | int n =>
        cases hsized
        exact (fitsSigned_of_le_maxInteger (hrange n (by simp))).1
      | negative n =>
        cases hsized
        exact (fitsSigned_of_le_maxInteger (hrange n (by simp))).2
      | bool _ => cases hsized
      | char _ => cases hsized

/-- In the tree of a module whose integers are in range, lowering takes the literals of a
type as its initial values. -/
theorem wellFormedBelow_coerces_iff (hm : ModuleAt s m root ids)
    (hdecls : ∀ d ∈ m.decls, ∃ ts, DeclarationTokens maxNesting ts d ∧
      ∀ n, Token.integer n ∈ ts → n ≤ maxInteger) :
    s.WellFormedBelow Coerces root root ↔ s.WellFormedBelow Represents root root := by
  have hsame : ∀ below g value l ty, s.Below root below → s.construct below = .ok (.global g) →
      value ∈ g.value → s.read .literal value = .ok l → (Coerces l ty ↔ Represents l ty) := by
    intro below g value l ty hbelow hconstruct hvalue hread
    obtain ⟨node, hnode, -, hglobal⟩ := hm.tree.of_below hbelow
    have hc : node.construct = .global g := by
      rw [construct, Store.node, hnode] at hconstruct
      exact Except.ok.inj hconstruct
    obtain ⟨type, name, initial, hmem, hliteral⟩ := hglobal g hc
    obtain ⟨l', hl', hread'⟩ := hliteral value hvalue
    obtain rfl : l = l'.sized := by simpa using hread.symm.trans hread'
    obtain ⟨ts, hts, hrange⟩ := hdecls _ hmem
    exact coerces_iff (fun v w => fitsSigned_of_tokens hts hrange hl') ty
  constructor
  · intro h
    exact h.imp fun below g value l ty hbelow hc hv hread =>
      (hsame _ _ _ _ _ hbelow hc hv hread).mp
  · intro h
    exact h.imp fun below g value l ty hbelow hc hv hread =>
      (hsame _ _ _ _ _ hbelow hc hv hread).mpr

/-! ## Acceptance -/

/-- A parsed module is lowered exactly if its tree is well formed, and every error is about
a node of the tree. -/
theorem lowerModule_ok_iff (hparse : parseModule tokens store notices = .ok parsed)
    (hroot : parsed.result = .ok root)
    (hrange : ∀ t ∈ tokens, ∀ n, t.value = .integer n → n ≤ maxInteger) (name : String) :
    let result := ((lowerModule root).runOn ⟨parsed.store, true⟩ (.empty name)).result
    (result = .ok () ↔ parsed.store.WellFormedBelow Represents root root) ∧
      ∀ halt, result = .error halt → ∃ error, halt = .refused error ∧
        (∀ name, error.value ≠ .redefinition name) ∧
        (∀ name expected found, error.value ≠ .argumentCountMismatch name expected found) ∧
        ∃ id c, parsed.store.Below root id ∧ parsed.store.construct id = .ok c ∧
          parsed.store.nearestSpan id = .ok error.span ∧
          Blames parsed.store root id error.value c := by
  intro result
  obtain ⟨m, ids, hm, hnamed, hdecls⟩ := parseModule_sound hparse hroot
  have hinRange : ∀ d ∈ m.decls, ∃ ts, DeclarationTokens maxNesting ts d ∧
      ∀ n, Token.integer n ∈ ts → n ≤ maxInteger := by
    intro d hd
    obtain ⟨ts, hts, hsubset⟩ := hdecls d hd
    refine ⟨ts, hts, fun n hn => ?_⟩
    obtain ⟨t, ht, hvalue⟩ := List.mem_map.mp (hsubset hn)
    exact hrange t ht n hvalue
  rw [← wellFormedBelow_coerces_iff hm hinRange]
  rcases (ends_lowerModule hm hnamed name).runOn_cases with
    ⟨_, st, hok, -, -, hwell⟩ | ⟨error, herror, hill, hblames⟩
  · refine ⟨⟨fun _ => hwell, fun _ => hok⟩, fun halt hhalt => ?_⟩
    exact absurd (hhalt.symm.trans hok) (by simp)
  · constructor
    · constructor
      · intro hok
        exact absurd (hok.symm.trans herror) (by simp)
      · intro hwell
        exact absurd hwell hill
    · intro halt hhalt
      obtain rfl : halt = .refused error := by simpa using hhalt.symm.trans herror
      obtain ⟨id, c, hbelow, hc, hspan, hblamed⟩ := hblames
      refine ⟨error, rfl, ?_, ?_, id, c, hbelow, hc, hspan, hblamed⟩
      · intro name hvalue
        rw [hvalue] at hblamed
        exact hblamed
      · intro name expected found hvalue
        rw [hvalue] at hblamed
        exact hblamed

/-- A module whose names are all declared after they are used. -/
def backward : Phrase.Module where
  name := ⟨"m"⟩
  decls :=
    [.function [] ⟨⟨"f"⟩, [⟨.named ⟨"point"⟩, ⟨"p"⟩⟩], false, .prim .void⟩
      [.varDecl ⟨"q"⟩ (some (.named ⟨"point"⟩)) (.reference ⟨"p"⟩),
        .exprStatement (.call ⟨"show"⟩ [.reference ⟨"seed"⟩, .reference ⟨"q"⟩])],
    .external [] ⟨⟨"show"⟩, [⟨.prim (.int .w8), ⟨"v"⟩⟩], true, .prim .void⟩,
    .global (.prim (.int .w8)) ⟨"seed"⟩ (some (.int (-128))),
    .struct ⟨"point"⟩ [⟨.prim (.int .w64), ⟨"x"⟩⟩]]

theorem lowers_backward :
    let tokens : List (Located Token) :=
      (backward.tokens ++ [Token.eof]).map fun t => ⟨t, default⟩
    (∀ t ∈ tokens, ∀ n, t.value = .integer n → n ≤ maxInteger) ∧
      ∃ parsed root, parseModule tokens .empty #[] = .ok parsed ∧ parsed.result = .ok root ∧
        ((lowerModule root).runOn ⟨parsed.store, true⟩ (.empty "")).result = .ok () := by
  intro tokens
  have hall : ∀ t ∈ tokens, (match t.value with
      | .integer n => decide (n ≤ maxInteger)
      | _ => true) = true := by decide
  refine ⟨fun t ht n hn => by simpa [hn] using hall t ht, exists_of_lowers ?_⟩
  decide +kernel

theorem lowerModule_ok_iff_backward :
    let tokens : List (Located Token) :=
      (backward.tokens ++ [Token.eof]).map fun t => ⟨t, default⟩
    (∀ t ∈ tokens, ∀ n, t.value = .integer n → n ≤ maxInteger) ∧
      ∃ parsed root, parseModule tokens .empty #[] = .ok parsed ∧ parsed.result = .ok root ∧
        parsed.store.WellFormedBelow Represents root root := by
  obtain ⟨hrange, parsed, root, hparse, hroot, hlower⟩ := lowers_backward
  exact ⟨hrange, parsed, root, hparse, hroot,
    (lowerModule_ok_iff hparse hroot hrange "").1.mp hlower⟩

end FrontEnd.Lowering
