import FrontEnd.Code.Listing
import FrontEnd.Proofs.Lowering.Numbering
import FrontEnd.Proofs.Lowering.Places
import FrontEnd.Proofs.Text.Reading

/-!
# A listing determines the program

The listing of a program can be read back, up to one thing: a return without an operand is shown
like a return of void.  So two programs with one listing are equal once each return has an operand.

A listing shows functions by their names and no types of globals that have initial values.  What
makes up for it is said by `Listable`, together with names that are words: functions have distinct
names, and the initial value of a global has the type of the global.

## Main definitions

* `Listable`: what a program has to satisfy to be read back.
* `Program.settled`: a program in which each return has an operand.

## Main statements

* `settled_eq_of_listing_eq`: programs with one listing.
-/

namespace FrontEnd.Code

open Text

variable {r r' : List Char} {ty : Ty} {p q : Program} {i j : Instr} {F : Func}

/-! ## Names and types -/

/-- A name consists of characters of words. -/
def IsPlain (name : Ident) : Prop := ∀ c ∈ name.text.toList, isWordChar c = true

theorem name_append_inj {name name' : Ident} (hname : IsPlain name) (hname' : IsPlain name')
    (hr : Ends r) (hr' : Ends r')
    (h : name.text.toList ++ r = name'.text.toList ++ r') : name = name' ∧ r = r' := by
  obtain ⟨htext, rfl⟩ := append_inj_of_word hname hname' hr hr' h
  exact ⟨congrArg Ident.mk (String.toList_inj.mp htext), rfl⟩

/-- A type has a plain name, if it has any. -/
def Ty.IsPlain : Ty → Prop
  | .struct name => Code.IsPlain name
  | _ => True

/-- The text of a type is a character, which tells it from what is no type, and a word. -/
theorem Ty.toList_text (h : ty.IsPlain) : ∃ c word, ty.text.toList = c :: word ∧
    c ∈ ['%', 'i', 'b', 'c', 'v'] ∧ ∀ d ∈ word, isWordChar d = true := by
  cases ty with
  | int bits =>
    exact ⟨'i', _, String.toList_append, by simp, fun _ => isWordChar_of_mem_toString⟩
  | bool => exact ⟨'b', ['o', 'o', 'l'], rfl, by simp, List.all_eq_true.mp rfl⟩
  | char => exact ⟨'c', ['h', 'a', 'r'], rfl, by simp, List.all_eq_true.mp rfl⟩
  | void => exact ⟨'v', ['o', 'i', 'd'], rfl, by simp, List.all_eq_true.mp rfl⟩
  | struct name => exact ⟨'%', _, String.toList_append, by simp, h⟩

theorem Ty.text_injective {ty' : Ty} (h : ty.text.toList = ty'.text.toList) : ty = ty' := by
  cases ty with
  | int bits =>
    cases ty' with
    | int bits' =>
      have hdigits : Nat.toDigits 10 bits = Nat.toDigits 10 bits' := by simpa [Ty.text] using h
      rw [toDigits_injective (by omega) (by omega) hdigits]
    | _ => simp [Ty.text] at h
  | bool =>
    cases ty' with
    | bool => rfl
    | _ => simp [Ty.text] at h
  | char =>
    cases ty' with
    | char => rfl
    | _ => simp [Ty.text] at h
  | void =>
    cases ty' with
    | void => rfl
    | _ => simp [Ty.text] at h
  | struct name =>
    cases ty' with
    | struct name' =>
      have hname : name.text.toList = name'.text.toList := by simpa [Ty.text] using h
      rw [show name = name' from congrArg Ident.mk (String.toList_inj.mp hname)]
    | _ => simp [Ty.text] at h

theorem Ty.text_append_inj {ty' : Ty} (hty : ty.IsPlain) (hty' : ty'.IsPlain)
    (h : ty.text.toList ++ ' ' :: r = ty'.text.toList ++ ' ' :: r') : ty = ty' ∧ r = r' := by
  obtain ⟨c, word, htext, -, hword⟩ := ty.toList_text hty
  obtain ⟨c', word', htext', -, hword'⟩ := ty'.toList_text hty'
  rw [htext, htext', List.cons_append, List.cons_append, List.cons.injEq] at h
  obtain ⟨hsame, hrest⟩ := append_inj_of_word hword hword' (ends_cons (by decide) r)
    (ends_cons (by decide) r') h.2
  refine ⟨Ty.text_injective ?_, (List.cons.inj hrest).2⟩
  rw [htext, htext', h.1, hsame]

/-! ## Constants and operands -/

/-- The text of a constant without its type. -/
def Constant.valueText : Constant → String
  | .int value _ => toString value
  | .bool value => boolText value
  | .char value => quoted value

theorem Constant.plain_ty (c : Constant) : c.ty.IsPlain := by cases c <;> trivial

theorem Constant.toList_text (c : Constant) :
    c.text.toList = c.ty.text.toList ++ ' ' :: c.valueText.toList := by
  cases c <;> simp [Constant.text, Constant.ty, Ty.text, Constant.valueText]

/-- Values of one type can be told from what follows them. -/
theorem Constant.valueText_append_inj {c d : Constant} (hty : c.ty = d.ty) (hr : Ends r)
    (hr' : Ends r') (h : c.valueText.toList ++ r = d.valueText.toList ++ r') :
    c = d ∧ r = r' := by
  cases c with
  | int value bits =>
    cases d with
    | int value' bits' =>
      obtain ⟨rfl, rfl⟩ := int_append_inj hr hr' h
      cases hty
      exact ⟨rfl, rfl⟩
    | _ => cases hty
  | bool value =>
    cases d with
    | bool value' =>
      have hword : ∀ value, (boolText value).toList.all isWordChar = true := by decide
      obtain ⟨htext, rfl⟩ := append_inj_of_word (List.all_eq_true.mp (hword value))
        (List.all_eq_true.mp (hword value')) hr hr' h
      cases value <;> cases value' <;> simp [boolText] at htext ⊢
    | _ => cases hty
  | char value =>
    cases d with
    | char value' =>
      obtain ⟨rfl, rfl⟩ := quoted_append_inj h
      exact ⟨rfl, rfl⟩
    | _ => cases hty

theorem Constant.text_append_inj {c d : Constant} (hr : Ends r) (hr' : Ends r')
    (h : c.text.toList ++ r = d.text.toList ++ r') : c = d ∧ r = r' := by
  rw [c.toList_text, d.toList_text, List.append_assoc, List.append_assoc] at h
  obtain ⟨hty, hrest⟩ := Ty.text_append_inj c.plain_ty d.plain_ty h
  exact Constant.valueText_append_inj hty hr hr' hrest

/-- An operand is no function. -/
def Operand.IsValue (op : Operand) : Prop := ∀ index, op ≠ .function index

theorem Operand.toList_text {op : Operand} (h : op.IsValue) (p : Program) :
    ∃ c rest, (op.text p).toList = c :: rest ∧ c ≠ ')' := by
  cases op with
  | slot index => exact ⟨'%', _, String.toList_append, by decide⟩
  | const value => cases value <;> simp [Operand.text, Constant.text]
  | function index => exact absurd rfl (h index)
  | void => simp [Operand.text]

/-- Operands can be told from what follows them, whatever functions the programs have. -/
theorem Operand.text_append_inj {op op' : Operand} (hop : op.IsValue) (hop' : op'.IsValue)
    (hr : Ends r) (hr' : Ends r') (h : (op.text p).toList ++ r = (op'.text q).toList ++ r') :
    op = op' ∧ r = r' := by
  cases op with
  | slot index =>
    cases op' with
    | slot index' =>
      rw [Operand.text, Operand.text, slotText, slotText, String.toList_append,
        String.toList_append, List.append_assoc, List.append_assoc] at h
      obtain ⟨rfl, rfl⟩ := nat_append_inj hr hr' (List.append_cancel_left h)
      exact ⟨rfl, rfl⟩
    | const value => cases value <;> simp [Operand.text, slotText, Constant.text] at h
    | function index' => exact absurd rfl (hop' index')
    | void => simp [Operand.text, slotText] at h
  | const value =>
    cases op' with
    | slot index => cases value <;> simp [Operand.text, slotText, Constant.text] at h
    | const value' =>
      obtain ⟨rfl, rfl⟩ := Constant.text_append_inj hr hr' h
      exact ⟨rfl, rfl⟩
    | function index' => exact absurd rfl (hop' index')
    | void => cases value <;> simp [Operand.text, Constant.text] at h
  | function index => exact absurd rfl (hop index)
  | void =>
    cases op' with
    | slot index => simp [Operand.text, slotText] at h
    | const value => cases value <;> simp [Operand.text, Constant.text] at h
    | function index' => exact absurd rfl (hop' index')
    | void => exact ⟨rfl, List.append_cancel_left h⟩

/-! ## Instructions -/

/-- An instruction in which a return has an operand. -/
def Instr.settled : Instr → Instr
  | .ret value => .ret (some (value.getD .void))
  | instr => instr

/-- What an instruction does, in a word. -/
def Instr.mnemonic : Instr → String
  | .move _ _ => "move"
  | .load _ _ => "load"
  | .binary op _ _ _ => op.text
  | .call _ _ _ => "call"
  | .ret _ => "ret"

/-- The text of an output. -/
def outputText : Option Nat → List Char
  | some slot => '%' :: ((toString slot).toList ++ [' ', '=', ' '])
  | none => []

/-- The text of what an instruction reads. -/
def Instr.inputText (p : Program) : Instr → List Char
  | .move value _ => (value.text p).toList
  | .load source _ => '@' :: source.text.toList
  | .binary _ lhs rhs _ => (lhs.text p).toList ++ ',' :: ' ' :: (rhs.text p).toList
  | .call target arguments _ => ((Operand.function target).text p).toList ++
      '(' :: ([',', ' '].intercalate (arguments.map fun a => (a.text p).toList) ++ [')'])
  | .ret value => ((value.getD .void).text p).toList

theorem Instr.toList_text (p : Program) (instr : Instr) :
    (instr.text p).toList =
      outputText instr.output? ++ (instr.mnemonic.toList ++ ' ' :: instr.inputText p) := by
  cases instr with
  | move value output => simp [Instr.text, Instr.output?, mnemonic, inputText, outputText, slotText]
  | load source output =>
    simp [Instr.text, Instr.output?, mnemonic, inputText, outputText, slotText]
  | binary op lhs rhs output =>
    simp [Instr.text, Instr.output?, mnemonic, inputText, outputText, slotText]
  | call target arguments output =>
    cases output <;>
      simp [Instr.text, Instr.output?, mnemonic, inputText, outputText, slotText,
        String.toList_intercalate, Function.comp_def]
  | ret value =>
    cases value <;>
      simp [Instr.text, Instr.output?, mnemonic, inputText, outputText, Operand.text]

theorem isWordChar_of_mem_mnemonic {instr : Instr} {c : Char} (h : c ∈ instr.mnemonic.toList) :
    isWordChar c = true := by
  have hall : ∀ text ∈ ["move", "load", "call", "ret"] ++ Operator.all.map Operator.text,
      text.toList.all isWordChar = true := by decide
  refine List.all_eq_true.mp (hall _ ?_) c h
  cases instr with
  | binary op lhs rhs output => cases op <;> simp [Instr.mnemonic, Operator.all]
  | _ => simp [Instr.mnemonic]

theorem ofText?_text (op : Operator) : Operator.ofText? op.text = some op := by
  cases op <;> rfl

/-- Instructions that are made up alike. -/
inductive Alike : Instr → Instr → Prop
  | move {value value' output output'} : Alike (.move value output) (.move value' output')
  | load {source source' output output'} : Alike (.load source output) (.load source' output')
  | binary {op lhs lhs' rhs rhs' output output'} :
      Alike (.binary op lhs rhs output) (.binary op lhs' rhs' output')
  | call {target target' arguments arguments' output output'} :
      Alike (.call target arguments output) (.call target' arguments' output')
  | ret {value value'} : Alike (.ret value) (.ret value')

/-- A mnemonic tells how an instruction is made up. -/
theorem alike_of_mnemonic (h : i.mnemonic = j.mnemonic) : Alike i j := by
  -- The texts of operators are read back, and no other mnemonic is read as an operator.
  have hop : ∀ {op : Operator} {text}, op.text = text → Operator.ofText? text = some op := by
    rintro op _ rfl
    exact ofText?_text op
  cases i with
  | binary op lhs rhs output =>
    cases j with
    | binary op' lhs' rhs' output' =>
      obtain rfl : op = op' := Option.some.inj ((ofText?_text op).symm.trans (hop h.symm))
      exact .binary
    | _ => cases hop h
  | move value output =>
    cases j with
    | move value' output' => exact .move
    | binary op lhs rhs output => cases hop h.symm
    | _ => simp [Instr.mnemonic] at h
  | load source output =>
    cases j with
    | load source' output' => exact .load
    | binary op lhs rhs output => cases hop h.symm
    | _ => simp [Instr.mnemonic] at h
  | call target arguments output =>
    cases j with
    | call target' arguments' output' => exact .call
    | binary op lhs rhs output => cases hop h.symm
    | _ => simp [Instr.mnemonic] at h
  | ret value =>
    cases j with
    | ret value' => exact .ret
    | binary op lhs rhs output => cases hop h.symm
    | _ => simp [Instr.mnemonic] at h

theorem output_append_inj {output output' : Option Nat} (hr : r.head? ≠ some '%')
    (hr' : r'.head? ≠ some '%') (h : outputText output ++ r = outputText output' ++ r') :
    output = output' ∧ r = r' := by
  cases output with
  | none =>
    cases output' with
    | none => exact ⟨rfl, h⟩
    | some slot =>
      rw [outputText, outputText, List.nil_append] at h
      exact absurd (by rw [h]; rfl) hr
  | some slot =>
    cases output' with
    | none =>
      rw [outputText, outputText, List.nil_append] at h
      exact absurd (by rw [← h]; rfl) hr'
    | some slot' =>
      simp only [outputText, List.cons_append, List.append_assoc, List.cons.injEq, true_and] at h
      obtain ⟨rfl, hrest⟩ := nat_append_inj (ends_cons (by decide) _) (ends_cons (by decide) _) h
      exact ⟨rfl, by simpa using hrest⟩

/-- An instruction can be read back: no function is an operand, and what is loaded or called has
a plain name. -/
structure Instr.Listable (p : Program) (instr : Instr) : Prop where
  operands : ∀ op ∈ instr.operands, op.IsValue
  loads : ∀ source output, instr = .load source output → IsPlain source
  calls : ∀ target arguments output, instr = .call target arguments output →
    ∃ F, p.functions[target]? = some F ∧ IsPlain F.name

theorem toList_text_function {target : Nat} (h : p.functions[target]? = some F) :
    ((Operand.function target).text p).toList = '@' :: F.name.text.toList := by
  simp [Operand.text, h]

/-- An output is told from the mnemonic that follows it. -/
theorem Instr.head?_mnemonic_ne (instr : Instr) (rest : List Char) :
    (instr.mnemonic.toList ++ ' ' :: rest).head? ≠ some '%' := by
  cases hmnemonic : instr.mnemonic.toList with
  | nil => simp
  | cons c word =>
    have hc : isWordChar c = true := isWordChar_of_mem_mnemonic (hmnemonic ▸ List.mem_cons_self)
    rintro hhead
    obtain rfl : c = '%' := by simpa using hhead
    exact absurd hc (by decide)

/-- What instructions read can be told from what follows it, if they are made up alike. -/
theorem Instr.inputText_append_inj (hi : i.Listable p) (hj : j.Listable q) (halike : Alike i j)
    (houtput : i.output? = j.output?)
    (h : i.inputText p ++ '\n' :: r = j.inputText q ++ '\n' :: r') :
    Lowering.SameInstr p q i.settled j.settled ∧ r = r' := by
  have hend : ∀ rest, Ends ('\n' :: rest) := ends_cons (by decide)
  have hcomma : ∀ rest, Ends (',' :: rest) := ends_cons (by decide)
  cases halike with
  | move =>
    obtain ⟨rfl, hrest⟩ := Operand.text_append_inj (hi.operands _ (by simp [operands]))
      (hj.operands _ (by simp [operands])) (hend r) (hend r') h
    cases houtput
    exact ⟨.move _ _, (List.cons.inj hrest).2⟩
  | load =>
    obtain ⟨rfl, hrest⟩ := name_append_inj (hi.loads _ _ rfl) (hj.loads _ _ rfl) (hend r)
      (hend r') (List.cons.inj h).2
    cases houtput
    exact ⟨.load _ _, (List.cons.inj hrest).2⟩
  | binary =>
    simp only [inputText, List.append_assoc, List.cons_append] at h
    obtain ⟨rfl, hrhs⟩ := Operand.text_append_inj (hi.operands _ (by simp [operands]))
      (hj.operands _ (by simp [operands])) (hcomma _) (hcomma _) h
    obtain ⟨rfl, hrest⟩ := Operand.text_append_inj (hi.operands _ (by simp [operands]))
      (hj.operands _ (by simp [operands])) (hend r) (hend r')
      (List.cons.inj (List.cons.inj hrhs).2).2
    cases houtput
    exact ⟨.binary _ _ _ _, (List.cons.inj hrest).2⟩
  | @call target target' arguments arguments' output output' =>
    obtain ⟨F, hF, hname⟩ := hi.calls _ _ _ rfl
    obtain ⟨F', hF', hname'⟩ := hj.calls _ _ _ rfl
    simp only [inputText, toList_text_function hF, toList_text_function hF', List.append_assoc,
      List.cons_append, List.cons.injEq, true_and] at h
    obtain ⟨hcallee, hlist⟩ := name_append_inj hname hname' (ends_cons (by decide) _)
      (ends_cons (by decide) _) h
    obtain ⟨harguments, hrest⟩ := separated_append_inj (R := Eq) (by decide) (by decide)
      (fun a ha => Operand.toList_text (hi.operands a ha) p)
      (fun a ha => Operand.toList_text (hj.operands a ha) q)
      (fun a ha b hb _ _ hr hr' => Operand.text_append_inj (hi.operands a ha) (hj.operands b hb)
        hr hr') (List.cons.inj hlist).2
    obtain rfl : arguments = arguments' := by rwa [List.forall₂_eq_eq_eq] at harguments
    cases houtput
    exact ⟨.call ⟨F, hF, rfl⟩ ⟨F', hF', hcallee.symm⟩, (List.cons.inj hrest).2⟩
  | @ret value value' =>
    have hvalue : ∀ {value : Option Operand}, (∀ op ∈ value.toList, op.IsValue) →
        (value.getD .void).IsValue := by
      intro value hvalue
      cases value with
      | none => simp [Operand.IsValue]
      | some op => exact hvalue op (by simp)
    obtain ⟨hsame, hrest⟩ := Operand.text_append_inj (hvalue hi.operands) (hvalue hj.operands)
      (hend r) (hend r') h
    refine ⟨?_, (List.cons.inj hrest).2⟩
    rw [settled, settled, hsame]
    exact .ret _

/-- Instructions can be told from what follows them, up to the places of functions. -/
theorem Instr.text_append_inj (hi : i.Listable p) (hj : j.Listable q)
    (h : (i.text p).toList ++ '\n' :: r = (j.text q).toList ++ '\n' :: r') :
    Lowering.SameInstr p q i.settled j.settled ∧ r = r' := by
  rw [i.toList_text, j.toList_text] at h
  simp only [List.append_assoc, List.cons_append] at h
  obtain ⟨houtput, hrest⟩ := output_append_inj (head?_mnemonic_ne _ _) (head?_mnemonic_ne _ _) h
  obtain ⟨hmnemonic, hrest⟩ := append_inj_of_word (fun _ => isWordChar_of_mem_mnemonic)
    (fun _ => isWordChar_of_mem_mnemonic) (ends_cons (by decide) _) (ends_cons (by decide) _) hrest
  exact Instr.inputText_append_inj hi hj (alike_of_mnemonic (String.toList_inj.mp hmnemonic))
    houtput (List.cons.inj hrest).2

/-! ## Bodies -/

/-- The line of an instruction at its place. -/
def lineText (p : Program) (entry : Instr × Nat) : List Char :=
  '\t' :: ((rightAligned 3 entry.2).toList ++
    ':' :: ' ' :: ((entry.1.text p).toList ++ ['\n']))

theorem toList_bodyText (p : Program) (body : List Instr) :
    (bodyText p body).toList = body.zipIdx.flatMap (lineText p) := by
  rw [bodyText, String.toList_join, List.flatMap_map]
  refine congrArg body.zipIdx.flatMap (funext fun entry => ?_)
  simp [lineText]

/-- Bodies can be told from what follows them, up to the places of functions. -/
theorem body_append_inj {body body' : List Instr} (n : Nat)
    (hbody : ∀ i ∈ body, i.Listable p) (hbody' : ∀ i ∈ body', i.Listable q)
    (h : (body.zipIdx n).flatMap (lineText p) ++ '\x7d' :: r =
      (body'.zipIdx n).flatMap (lineText q) ++ '\x7d' :: r') :
    Lowering.SameCode p q (body.map Instr.settled) (body'.map Instr.settled) ∧ r = r' := by
  induction body generalizing n body' with
  | nil =>
    cases body' with
    | nil => exact ⟨.nil, (List.cons.inj h).2⟩
    | cons j body' => simp [lineText] at h
  | cons i body ih =>
    cases body' with
    | nil => simp [lineText] at h
    | cons j body' =>
      -- Both lines have the number `n`, so the instructions start at the same place.
      simp only [List.zipIdx_cons, List.flatMap_cons, lineText, List.cons_append,
        List.append_assoc, List.cons.injEq, true_and, List.append_cancel_left_eq,
        List.nil_append] at h
      obtain ⟨hhead, hrest⟩ := Instr.text_append_inj (hbody i (by simp)) (hbody' j (by simp)) h
      obtain ⟨htail, rfl⟩ := ih (n + 1) (fun i hi => hbody i (by simp [hi]))
        (fun j hj => hbody' j (by simp [hj])) hrest
      exact ⟨.cons hhead htail, rfl⟩

/-! ## Signatures -/

/-- What stands between the parentheses of a function: its parameters, and a mark if it takes
more. -/
def Signature.entries (s : Signature) : List (Option (Ty × Nat)) :=
  s.parameters.zipIdx.map some ++ if s.variadic then [none] else []

/-- The text of an entry. -/
def entryText : Option (Ty × Nat) → List Char
  | some (ty, index) => ty.text.toList ++ ' ' :: (slotText index).toList
  | none => ['.', '.', '.']

theorem Signature.toList_parametersText (s : Signature) :
    s.parametersText.toList = [',', ' '].intercalate (s.entries.map entryText) := by
  rw [parametersText, String.toList_intercalate, entries]
  refine congrArg [',', ' '].intercalate ?_
  cases s.variadic <;> simp [entryText, Function.comp_def]

theorem Signature.parameters_of_entries (s : Signature) :
    (s.entries.filterMap id).map Prod.fst = s.parameters := by
  rw [entries]
  cases s.variadic <;> simp

theorem Signature.none_mem_entries (s : Signature) : none ∈ s.entries ↔ s.variadic = true := by
  rw [entries]
  cases s.variadic <;> simp

/-- A signature is its entries and what it returns. -/
theorem Signature.eq_of_entries {s s' : Signature} (hentries : s.entries = s'.entries)
    (hresult : s.returnType = s'.returnType) : s = s' := by
  have hparameters : s.parameters = s'.parameters := by
    rw [← s.parameters_of_entries, hentries, s'.parameters_of_entries]
  have hvariadic : s.variadic = s'.variadic := by
    rw [Bool.eq_iff_iff, ← s.none_mem_entries, hentries, s'.none_mem_entries]
  calc s
    _ = ⟨s.parameters, s.variadic, s.returnType⟩ := rfl
    _ = s' := by rw [hparameters, hvariadic, hresult]

/-- The type of a parameter is plain. -/
def PlainEntry (entry : Option (Ty × Nat)) : Prop := ∀ e ∈ entry, e.1.IsPlain

theorem Signature.plainEntry {s : Signature} (h : ∀ ty ∈ s.parameters, ty.IsPlain) :
    ∀ entry ∈ s.entries, PlainEntry entry := by
  rintro entry hentry ⟨ty, index⟩ rfl
  refine h ty ?_
  rw [← s.parameters_of_entries]
  exact List.mem_map.mpr ⟨(ty, index), List.mem_filterMap.mpr ⟨_, hentry, rfl⟩, rfl⟩

theorem entryText_eq_cons {entry : Option (Ty × Nat)} (h : PlainEntry entry) :
    ∃ c rest, entryText entry = c :: rest ∧ c ≠ ')' := by
  cases entry with
  | none => exact ⟨'.', _, rfl, by decide⟩
  | some e =>
    obtain ⟨c, word, htext, hc, -⟩ := Ty.toList_text (h e rfl)
    refine ⟨c, _, by rw [entryText, htext]; rfl, ?_⟩
    rintro rfl
    exact absurd hc (by decide)

theorem entry_append_inj {entry entry' : Option (Ty × Nat)} (hentry : PlainEntry entry)
    (hentry' : PlainEntry entry') (hr : Ends r) (hr' : Ends r')
    (h : entryText entry ++ r = entryText entry' ++ r') : entry = entry' ∧ r = r' := by
  have hne : ∀ (e : Ty × Nat) {rest rest'}, e.1.IsPlain →
      entryText (some e) ++ rest ≠ entryText none ++ rest' := by
    intro e rest rest' he heq
    obtain ⟨c, word, htext, hc, -⟩ := Ty.toList_text he
    rw [entryText, htext] at heq
    obtain rfl : c = '.' := (List.cons.inj heq).1
    exact absurd hc (by decide)
  cases entry with
  | none =>
    cases entry' with
    | none => exact ⟨rfl, List.append_cancel_left h⟩
    | some e' => exact absurd h.symm (hne e' (hentry' e' rfl))
  | some e =>
    cases entry' with
    | none => exact absurd h (hne e (hentry e rfl))
    | some e' =>
      simp only [entryText, slotText, String.toList_append, List.append_assoc,
        List.cons_append] at h
      obtain ⟨hty, hrest⟩ := Ty.text_append_inj (hentry e rfl) (hentry' e' rfl) h
      obtain ⟨hindex, rfl⟩ := nat_append_inj hr hr' (List.append_cancel_left hrest)
      exact ⟨congrArg some (Prod.ext hty hindex), rfl⟩

/-! ## Functions -/

/-- A function in which each return has an operand. -/
def Func.settled (F : Func) : Func := { F with body := F.body.map (List.map Instr.settled) }

/-- A function can be read back. -/
structure Func.Listable (p : Program) (F : Func) : Prop where
  name : IsPlain F.name
  parameters : ∀ ty ∈ F.signature.parameters, ty.IsPlain
  result : F.signature.returnType.IsPlain
  body : ∀ code ∈ F.body, ∀ i ∈ code, i.Listable p

theorem Func.toList_head (F : Func) : F.head.toList = F.signature.returnType.text.toList ++
    ' ' :: '@' :: (F.name.text.toList ++
      '(' :: ([',', ' '].intercalate (F.signature.entries.map entryText) ++ [')'])) := by
  simp [Func.head, ← Signature.toList_parametersText]

theorem Func.head_append_inj {G : Func} (hF : F.Listable p) (hG : G.Listable q)
    (h : F.head.toList ++ r = G.head.toList ++ r') :
    F.name = G.name ∧ F.signature = G.signature ∧ r = r' := by
  simp only [toList_head, List.append_assoc, List.cons_append] at h
  obtain ⟨hresult, hname⟩ := Ty.text_append_inj hF.result hG.result h
  obtain ⟨hname, hlist⟩ := name_append_inj hF.name hG.name (ends_cons (by decide) _)
    (ends_cons (by decide) _) (List.cons.inj hname).2
  obtain ⟨hentries, hrest⟩ := separated_append_inj (R := Eq) (by decide) (by decide)
    (fun entry hentry => entryText_eq_cons (Signature.plainEntry hF.parameters entry hentry))
    (fun entry hentry => entryText_eq_cons (Signature.plainEntry hG.parameters entry hentry))
    (fun entry hentry entry' hentry' _ _ => entry_append_inj
      (Signature.plainEntry hF.parameters entry hentry)
      (Signature.plainEntry hG.parameters entry' hentry')) (List.cons.inj hlist).2
  rw [List.forall₂_eq_eq_eq] at hentries
  exact ⟨hname, Signature.eq_of_entries hentries hresult, by simpa using hrest⟩

/-- Functions can be told from what follows them, up to the places of functions. -/
theorem Func.text_append_inj {G : Func} (hF : F.Listable p) (hG : G.Listable q)
    (h : (F.text p).toList ++ r = (G.text q).toList ++ r') :
    Lowering.SameFunction p q F.settled G.settled ∧ r = r' := by
  cases hbody : F.body with
  | none =>
    cases hbody' : G.body with
    | none =>
      simp only [Func.text, hbody, hbody', String.toList_append, List.append_assoc] at h
      obtain ⟨hname, hsignature, hrest⟩ := head_append_inj hF hG (List.append_cancel_left h)
      refine ⟨⟨hname, hsignature, ?_⟩, List.append_cancel_left hrest⟩
      simp only [Func.settled, hbody, hbody', Option.map_none]
      exact .none
    | some code' => simp [Func.text, hbody, hbody'] at h
  | some code =>
    cases hbody' : G.body with
    | none => simp [Func.text, hbody, hbody'] at h
    | some code' =>
      simp only [Func.text, hbody, hbody', String.toList_append, List.append_assoc,
        toList_bodyText] at h
      obtain ⟨hname, hsignature, hrest⟩ := head_append_inj hF hG (List.append_cancel_left h)
      obtain ⟨hcode, hrest⟩ := body_append_inj 0 (hF.body code hbody) (hG.body code' hbody')
        (List.append_cancel_left hrest)
      refine ⟨⟨hname, hsignature, ?_⟩, (List.cons.inj hrest).2⟩
      simp only [Func.settled, hbody, hbody', Option.map_some]
      exact .some hcode

/-! ## Structs and globals -/

/-- A struct can be read back. -/
structure StructType.Listable (s : StructType) : Prop where
  name : IsPlain s.name
  fields : ∀ field ∈ s.fields, IsPlain field.1 ∧ field.2.IsPlain

/-- The text of a field. -/
def fieldText (field : Ident × Ty) : List Char :=
  field.2.text.toList ++ ' ' :: field.1.text.toList

theorem StructType.toList_text (s : StructType) : s.text.toList = '%' :: (s.name.text.toList ++
    ' ' :: ("= type \x7b ".toList ++ ([',', ' '].intercalate (s.fields.map fieldText) ++
      [' ', '\x7d', '\n']))) := by
  have hfields : s.fields.map fieldText = (s.fields.map fun field =>
      field.2.text ++ " " ++ field.1.text).map String.toList := by
    simp [fieldText, Function.comp_def]
  rw [hfields, StructType.text]
  simp [String.toList_intercalate]

theorem field_append_inj {field field' : Ident × Ty} (hfield : IsPlain field.1 ∧ field.2.IsPlain)
    (hfield' : IsPlain field'.1 ∧ field'.2.IsPlain) (hr : Ends r) (hr' : Ends r')
    (h : fieldText field ++ r = fieldText field' ++ r') : field = field' ∧ r = r' := by
  simp only [fieldText, List.append_assoc, List.cons_append] at h
  obtain ⟨hty, hname⟩ := Ty.text_append_inj hfield.2 hfield'.2 h
  obtain ⟨hsame, rfl⟩ := name_append_inj hfield.1 hfield'.1 hr hr' hname
  exact ⟨Prod.ext hsame hty, rfl⟩

theorem fieldText_eq_cons {field : Ident × Ty} (h : field.2.IsPlain) :
    ∃ c rest, fieldText field = c :: rest ∧ c ≠ ' ' := by
  obtain ⟨c, word, htext, hc, -⟩ := Ty.toList_text h
  refine ⟨c, _, by rw [fieldText, htext]; rfl, ?_⟩
  rintro rfl
  exact absurd hc (by decide)

theorem StructType.text_append_inj {s s' : StructType} (hs : s.Listable) (hs' : s'.Listable)
    (h : s.text.toList ++ r = s'.text.toList ++ r') : s = s' ∧ r = r' := by
  simp only [toList_text, List.append_assoc, List.cons_append, List.cons.injEq, true_and] at h
  obtain ⟨hname, hlist⟩ := name_append_inj hs.name hs'.name (ends_cons (by decide) _)
    (ends_cons (by decide) _) h
  obtain ⟨hfields, hrest⟩ := separated_append_inj (R := Eq) (by decide) (by decide)
    (fun field hfield => fieldText_eq_cons (hs.fields field hfield).2)
    (fun field hfield => fieldText_eq_cons (hs'.fields field hfield).2)
    (fun field hfield field' hfield' _ _ => field_append_inj (hs.fields field hfield)
      (hs'.fields field' hfield')) (List.append_cancel_left (List.cons.inj hlist).2)
  rw [List.forall₂_eq_eq_eq] at hfields
  refine ⟨?_, by simpa using hrest⟩
  calc s
    _ = ⟨s.name, s.fields⟩ := rfl
    _ = s' := by rw [hname, hfields]

/-- A global can be read back. -/
structure GlobalVar.Listable (g : GlobalVar) : Prop where
  name : IsPlain g.name
  ty : g.ty.IsPlain
  init : ∀ value ∈ g.init, value.ty = g.ty

/-- The text of an initial value without its type. -/
def initText : Option Constant → List Char
  | some value => value.valueText.toList
  | none => ['z', 'e', 'r', 'o', 'e', 'd']

theorem GlobalVar.toList_text {g : GlobalVar} (h : g.Listable) : g.text.toList =
    '@' :: (g.name.text.toList ++ ' ' :: ("= global ".toList ++ (g.ty.text.toList ++
      ' ' :: (initText g.init ++ ['\n'])))) := by
  cases hinit : g.init with
  | none => simp [GlobalVar.text, hinit, initText]
  | some value =>
    simp [GlobalVar.text, hinit, initText, value.toList_text, h.init value hinit]

theorem Constant.valueText_append_ne (c : Constant) (r r' : List Char) :
    c.valueText.toList ++ r ≠ 'z' :: r' := by
  cases c with
  | int value bits => exact int_append_ne (by decide) (by decide) value r r'
  | bool value => cases value <;> simp [valueText, boolText]
  | char value => exact quoted_append_ne (by decide) r r'

theorem init_append_inj {init init' : Option Constant} (hinit : ∀ value ∈ init, value.ty = ty)
    (hinit' : ∀ value ∈ init', value.ty = ty) (hr : Ends r) (hr' : Ends r')
    (h : initText init ++ r = initText init' ++ r') : init = init' ∧ r = r' := by
  cases init with
  | none =>
    cases init' with
    | none => exact ⟨rfl, List.append_cancel_left h⟩
    | some value' => exact absurd h.symm (value'.valueText_append_ne _ _)
  | some value =>
    cases init' with
    | none => exact absurd h (value.valueText_append_ne _ _)
    | some value' =>
      have hty : value.ty = value'.ty := (hinit value rfl).trans (hinit' value' rfl).symm
      obtain ⟨rfl, rfl⟩ := Constant.valueText_append_inj hty hr hr' h
      exact ⟨rfl, rfl⟩

theorem GlobalVar.text_append_inj {g g' : GlobalVar} (hg : g.Listable) (hg' : g'.Listable)
    (h : g.text.toList ++ r = g'.text.toList ++ r') : g = g' ∧ r = r' := by
  simp only [toList_text hg, toList_text hg', List.append_assoc, List.cons_append,
    List.cons.injEq, true_and] at h
  obtain ⟨hname, hrest⟩ := name_append_inj hg.name hg'.name (ends_cons (by decide) _)
    (ends_cons (by decide) _) h
  obtain ⟨hty, hvalue⟩ := Ty.text_append_inj hg.ty hg'.ty
    (List.append_cancel_left (List.cons.inj hrest).2)
  obtain ⟨hinit, hrest⟩ := init_append_inj (hty ▸ hg.init) hg'.init (ends_cons (by decide) _)
    (ends_cons (by decide) _) hvalue
  refine ⟨?_, by simpa using hrest⟩
  calc g
    _ = ⟨g.name, g.ty, g.init⟩ := rfl
    _ = g' := by rw [hname, hty, hinit]

/-! ## Programs -/

/-- A program in which each return has an operand. -/
def Program.settled (p : Program) : Program := { p with functions := p.functions.map Func.settled }

/-- A program can be read back from its listing. -/
structure Program.Listable (p : Program) : Prop where
  name : '\n' ∉ p.name.toList
  structs : ∀ s ∈ p.structs, s.Listable
  globals : ∀ g ∈ p.globals, g.Listable
  functions : ∀ F ∈ p.functions, F.Listable p
  distinct : DistinctNames (p.functions.map Func.name)

theorem Program.toList_listing (p : Program) : p.listing.toList = "; module ".toList ++
    (p.name.toList ++ '\n' :: (p.structs.flatMap (fun s => s.text.toList) ++
      (p.globals.flatMap (fun g => g.text.toList) ++
        (p.functions.flatMap (fun F => (F.text p).toList) ++ [])))) := by
  simp [Program.listing, String.toList_join, List.flatMap_map]

theorem head?_text_struct (s : StructType) : s.text.toList.head? = some '%' := by
  rw [s.toList_text]
  rfl

theorem head?_text_global (g : GlobalVar) : g.text.toList.head? = some '@' := by
  simp [GlobalVar.text]

theorem head?_text_func (p : Program) (F : Func) : (F.text p).toList.head? = some 'd' := by
  cases hbody : F.body <;> simp [Func.text, hbody]

/-- The parts of programs with one listing are the same, functions up to their places. -/
theorem parts_of_listing_eq (hp : p.Listable) (hq : q.Listable) (h : p.listing = q.listing) :
    p.name = q.name ∧ p.structs = q.structs ∧
      p.globals = q.globals ∧ List.Forall₂ (fun F G =>
        Lowering.SameFunction p q F.settled G.settled) p.functions q.functions := by
  have hchars := congrArg String.toList h
  rw [p.toList_listing, q.toList_listing] at hchars
  -- Each part ends where the next one starts with a character of its own.
  have hafterGlobals : ∀ (p : Program) {c : Char}, 'd' ≠ c →
      (p.functions.flatMap (fun F : Func => (F.text p).toList) ++ []).head? ≠ some c :=
    fun p _ hc => head?_flatMap_ne hc (by simp) (head?_text_func p)
  have hafterStructs : ∀ p : Program, (p.globals.flatMap (fun g : GlobalVar => g.text.toList) ++
      (p.functions.flatMap (fun F : Func => (F.text p).toList) ++ [])).head? ≠ some '%' :=
    fun p => head?_flatMap_ne (by decide) (hafterGlobals p (by decide)) head?_text_global
  obtain ⟨hname, hchars⟩ := append_inj_of_line hp.name hq.name (List.append_cancel_left hchars)
  obtain ⟨hstructs, hchars⟩ := lines_append_inj (R := Eq) (hafterStructs p) (hafterStructs q)
    head?_text_struct head?_text_struct (fun s hs s' hs' _ _ =>
      StructType.text_append_inj (hp.structs s hs) (hq.structs s' hs')) hchars
  obtain ⟨hglobals, hchars⟩ := lines_append_inj (R := Eq) (hafterGlobals p (by decide))
    (hafterGlobals q (by decide)) head?_text_global head?_text_global (fun g hg g' hg' _ _ =>
      GlobalVar.text_append_inj (hp.globals g hg) (hq.globals g' hg')) hchars
  obtain ⟨hfunctions, -⟩ := lines_append_inj (by simp) (by simp) (head?_text_func p)
    (head?_text_func q) (fun F hF G hG _ _ =>
      Func.text_append_inj (hp.functions F hF) (hq.functions G hG)) hchars
  rw [List.forall₂_eq_eq_eq] at hstructs hglobals
  exact ⟨String.toList_inj.mp hname, hstructs, hglobals, hfunctions⟩

/-- Programs that can be read back and have one listing are equal, once each return has an
operand. -/
theorem settled_eq_of_listing_eq (hp : p.Listable) (hq : q.Listable) (h : p.listing = q.listing) :
    p.settled = q.settled := by
  obtain ⟨hname, hstructs, hglobals, hsame⟩ := parts_of_listing_eq hp hq h
  have hnames : p.functions.map Func.name = q.functions.map Func.name := by
    rw [← List.forall₂_eq_eq_eq, List.forall₂_map_left_iff, List.forall₂_map_right_iff]
    exact hsame.imp fun _ _ h => h.name
  -- With the names in the same order, what is called by name is called at the same place.
  have hfunctions : p.functions.map Func.settled = q.functions.map Func.settled := by
    rw [← List.forall₂_eq_eq_eq, List.forall₂_map_left_iff, List.forall₂_map_right_iff]
    exact hsame.imp fun _ _ => Lowering.SameFunction.eq hnames hp.distinct
  rw [Program.settled, Program.settled, hname, hstructs, hglobals, hfunctions]

/-! ## Settled programs have the same listing -/

theorem Operand.text_settled (p : Program) (op : Operand) : op.text p.settled = op.text p := by
  cases op with
  | function index =>
    rw [Operand.text, Operand.text, Program.settled, List.getElem?_map]
    cases p.functions[index]? <;> rfl
  | slot | const | void => rfl

theorem Instr.text_settled (p : Program) (instr : Instr) :
    instr.settled.text p.settled = instr.text p := by
  have hoperand : Operand.text p.settled = Operand.text p := funext (Operand.text_settled p)
  cases instr with
  | ret value =>
    cases value with
    | none => simp [settled, Instr.text, Operand.text]
    | some op => simp [settled, Instr.text, hoperand]
  | _ => simp [settled, Instr.text, hoperand]

theorem Func.text_settled (p : Program) (F : Func) : F.settled.text p.settled = F.text p := by
  have hbody : ∀ body, bodyText p.settled (body.map Instr.settled) = bodyText p body := by
    intro body
    rw [bodyText, bodyText, List.zipIdx_map, List.map_map]
    simp [Function.comp_def, Instr.text_settled]
  cases hF : F.body with
  | none => simp [Func.text, Func.settled, hF, Func.head]
  | some body => simp [Func.text, Func.settled, hF, Func.head, hbody]

theorem Program.listing_settled (p : Program) : p.settled.listing = p.listing := by
  have hfunctions : p.settled.functions.map (Func.text p.settled) =
      p.functions.map (Func.text p) := by
    rw [show p.settled.functions = p.functions.map Func.settled from rfl, List.map_map]
    simp [Function.comp_def, Func.text_settled]
  rw [Program.listing, Program.listing, hfunctions]
  rfl

end FrontEnd.Code
