import FrontEnd.Text.Quoted
import FrontEnd.Token.Scanner
import Mathlib.Data.List.Forall2

/-!
# Texts that can be told from what follows them

A text that is written without its length can be read back only if its end shows.  Words and
numbers end where no character of a word follows, and quoted characters at their quote.  Lists
end where what follows starts in another way than their items do.

Each lemma here has one shape: where two texts, each with what follows it, agree, the texts are
of the same thing and what follows agrees too.

## Main statements

* `append_inj_of_word`: words.
* `quoted_append_inj`: quoted characters.
* `lines_append_inj`, `separated_append_inj`: lists of items, next to each other or parted by
  commas.
-/

namespace FrontEnd.Text

variable {r r' w w' : List Char} {c : Char}

/-! ## Words and numbers -/

/-- What follows does not go on as a word. -/
def Ends (rest : List Char) : Prop := ∀ c ∈ rest.head?, isWordChar c = false

theorem ends_cons (h : isWordChar c = false) (rest : List Char) : Ends (c :: rest) := by
  simpa [Ends] using h

/-- Characters of one class can be told from what follows them, if that starts with a character of
another class. -/
theorem append_inj_of_class {p : Char → Bool} (hw : ∀ c ∈ w, p c = true)
    (hw' : ∀ c ∈ w', p c = true) (hr : ∀ c ∈ r.head?, p c = false)
    (hr' : ∀ c ∈ r'.head?, p c = false) (h : w ++ r = w' ++ r') : w = w' ∧ r = r' := by
  induction w generalizing w' with
  | nil =>
    cases w' with
    | nil => exact ⟨rfl, h⟩
    | cons c rest =>
      have hc := hw' c (by simp)
      rw [List.nil_append] at h
      rw [hr c (by simp [h])] at hc
      cases hc
  | cons c rest ih =>
    cases w' with
    | nil =>
      have hc := hw c (by simp)
      rw [List.nil_append] at h
      rw [hr' c (by simp [← h])] at hc
      cases hc
    | cons c' rest' =>
      rw [List.cons_append, List.cons_append, List.cons.injEq] at h
      obtain ⟨rfl, h⟩ := h
      obtain ⟨rfl, rfl⟩ := ih (fun d hd => hw d (by simp [hd])) (fun d hd => hw' d (by simp [hd])) h
      exact ⟨rfl, rfl⟩

/-- Words can be told from what follows them. -/
theorem append_inj_of_word (hw : ∀ c ∈ w, isWordChar c = true) (hw' : ∀ c ∈ w', isWordChar c = true)
    (hr : Ends r) (hr' : Ends r') (h : w ++ r = w' ++ r') : w = w' ∧ r = r' :=
  append_inj_of_class hw hw' hr hr' h

/-- Lines can be told from what follows them. -/
theorem append_inj_of_line (hw : '\n' ∉ w) (hw' : '\n' ∉ w')
    (h : w ++ '\n' :: r = w' ++ '\n' :: r') : w = w' ∧ r = r' := by
  have hline : ∀ {w : List Char}, '\n' ∉ w → ∀ c ∈ w, (c != '\n') = true := by
    rintro w hw c hc
    simpa using fun heq : c = '\n' => hw (heq ▸ hc)
  obtain ⟨rfl, hrest⟩ := append_inj_of_class (hline hw) (hline hw') (by simp) (by simp) h
  exact ⟨rfl, (List.cons.inj hrest).2⟩

/-! ## Numbers -/

theorem digitChar_inj : ∀ i < 16, ∀ j < 16, Nat.digitChar i = Nat.digitChar j → i = j := by decide

theorem isWordChar_digitChar : ∀ i < 16, isWordChar (Nat.digitChar i) = true := by decide

section Digits

variable {b n : Nat} (hb : 1 < b) (hb' : b ≤ 16)
include hb hb'

theorem isWordChar_of_mem_toDigits {c : Char} (h : c ∈ Nat.toDigits b n) : isWordChar c = true := by
  induction n using Nat.strongRecOn with
  | _ n ih =>
    rw [Nat.toDigits_eq_if hb] at h
    split at h
    · rw [List.mem_singleton.mp h]
      exact isWordChar_digitChar n (by omega)
    · rcases List.mem_append.mp h with h | h
      · exact ih (n / b) (Nat.div_lt_self (by omega) hb) h
      · have hlt : n % b < b := Nat.mod_lt n (by omega)
        rw [List.mem_singleton.mp h]
        exact isWordChar_digitChar (n % b) (by omega)

theorem toDigits_injective {m : Nat} (h : Nat.toDigits b m = Nat.toDigits b n) : m = n := by
  induction m using Nat.strongRecOn generalizing n with
  | _ m ih =>
    rw [Nat.toDigits_eq_if (n := m) hb, Nat.toDigits_eq_if (n := n) hb] at h
    by_cases hm : m < b <;> by_cases hn : n < b
    · rw [if_pos hm, if_pos hn, List.singleton_inj] at h
      exact digitChar_inj m (by omega) n (by omega) h
    · rw [if_pos hm, if_neg hn, ← List.nil_append [_]] at h
      exact absurd (List.append_inj' h rfl).1.symm Nat.toDigits_ne_nil
    · rw [if_neg hm, if_pos hn, ← List.nil_append [n.digitChar]] at h
      exact absurd (List.append_inj' h rfl).1 Nat.toDigits_ne_nil
    · rw [if_neg hm, if_neg hn] at h
      obtain ⟨hinit, hlast⟩ := List.append_inj' h rfl
      have hdiv := ih (m / b) (Nat.div_lt_self (by omega) hb) hinit
      have hlt : m % b < b := Nat.mod_lt m (by omega)
      have hlt' : n % b < b := Nat.mod_lt n (by omega)
      have hmod := digitChar_inj _ (by omega) _ (by omega) (List.singleton_inj.mp hlast)
      rw [← Nat.div_add_mod m b, ← Nat.div_add_mod n b, hdiv, hmod]

/-- Numbers can be told from what follows them. -/
theorem toDigits_append_inj {m : Nat} (hr : Ends r) (hr' : Ends r')
    (h : Nat.toDigits b m ++ r = Nat.toDigits b n ++ r') : m = n ∧ r = r' := by
  obtain ⟨hdigits, rfl⟩ := append_inj_of_word (fun _ => isWordChar_of_mem_toDigits hb hb')
    (fun _ => isWordChar_of_mem_toDigits hb hb') hr hr' h
  exact ⟨toDigits_injective hb hb' hdigits, rfl⟩

end Digits

theorem toList_toString (n : Nat) : (toString n).toList = Nat.toDigits 10 n := by
  rw [Nat.toString_eq_ofList_toDigits, String.toList_ofList]

theorem isWordChar_of_mem_toString {n : Nat} (h : c ∈ (toString n).toList) :
    isWordChar c = true := by
  rw [toList_toString] at h
  exact isWordChar_of_mem_toDigits (by omega) (by omega) h

theorem nat_append_inj {m n : Nat} (hr : Ends r) (hr' : Ends r')
    (h : (toString m).toList ++ r = (toString n).toList ++ r') : m = n ∧ r = r' := by
  rw [toList_toString, toList_toString] at h
  exact toDigits_append_inj (by omega) (by omega) hr hr' h

theorem toString_append_ne (hc : c.isDigit = false) (n : Nat) (r r' : List Char) :
    (toString n).toList ++ r ≠ c :: r' := by
  intro h
  rw [toList_toString] at h
  obtain ⟨d, rest, hdigits⟩ := List.exists_cons_of_ne_nil (Nat.toDigits_ne_nil (n := n) (b := 10))
  have hd : d.isDigit = true :=
    Nat.isDigit_of_mem_toDigits (by omega) (by omega) (hdigits ▸ List.mem_cons_self)
  rw [hdigits, List.cons_append, List.cons.injEq] at h
  rw [h.1, hc] at hd
  cases hd

theorem toList_toString_negSucc (n : Nat) :
    (toString (Int.negSucc n)).toList = '-' :: (toString (n + 1)).toList :=
  String.toList_append

theorem int_append_ne (hc : c.isDigit = false) (hsign : c ≠ '-') (a : Int) (r r' : List Char) :
    (toString a).toList ++ r ≠ c :: r' := by
  cases a with
  | ofNat n => exact toString_append_ne hc n r r'
  | negSucc n =>
    rw [toList_toString_negSucc]
    exact fun h => hsign (List.cons.inj h).1.symm

theorem int_append_inj {a b : Int} (hr : Ends r) (hr' : Ends r')
    (h : (toString a).toList ++ r = (toString b).toList ++ r') : a = b ∧ r = r' := by
  cases a with
  | ofNat m =>
    cases b with
    | ofNat n =>
      obtain ⟨rfl, rfl⟩ := nat_append_inj (m := m) (n := n) hr hr' h
      exact ⟨rfl, rfl⟩
    | negSucc n =>
      rw [toList_toString_negSucc] at h
      exact absurd h (toString_append_ne (by decide) m r _)
  | negSucc m =>
    cases b with
    | ofNat n =>
      rw [toList_toString_negSucc] at h
      exact absurd h.symm (toString_append_ne (by decide) n r' _)
    | negSucc n =>
      rw [toList_toString_negSucc, toList_toString_negSucc, List.cons_append, List.cons_append,
        List.cons.injEq] at h
      obtain ⟨heq, rfl⟩ := nat_append_inj hr hr' h.2
      obtain rfl : m = n := by omega
      exact ⟨rfl, rfl⟩

/-! ## Quoted characters -/

/-- The marks of short escapes, each with its character. -/
def marks : List (Char × Char) :=
  [('0', '\x00'), ('t', '\t'), ('r', '\r'), ('n', '\n'), ('\x27', '\x27'), ('\\', '\\')]

theorem marks_unique : ∀ x ∈ marks, x.1 ≠ 'u' ∧ ∀ y ∈ marks, x.1 = y.1 → x.2 = y.2 := by decide

theorem shortEscape?_eq_some {escape : String} (h : shortEscape? c = some escape) :
    ∃ mark, (mark, c) ∈ marks ∧ escape.toList = ['\\', mark] := by
  unfold shortEscape? at h
  split_ifs at h <;> cases h <;> subst c
  · exact ⟨'0', by decide, rfl⟩
  · exact ⟨'t', by decide, rfl⟩
  · exact ⟨'r', by decide, rfl⟩
  · exact ⟨'n', by decide, rfl⟩
  · exact ⟨'\x27', by decide, rfl⟩
  · exact ⟨'\\', by decide, rfl⟩

/-- A quoted character is a mark, a code point or the character itself. -/
theorem quoted_cases (c : Char) :
    (∃ mark, (mark, c) ∈ marks ∧ (quoted c).toList = ['\x27', '\\', mark, '\x27']) ∨
    ((quoted c).toList =
      '\x27' :: '\\' :: 'u' :: '\x7b' :: (Nat.toDigits 16 c.toNat ++ ['\x7d', '\x27'])) ∨
    (c ≠ '\\' ∧ (quoted c).toList = ['\x27', c, '\x27']) := by
  rw [quoted]
  cases hescape : shortEscape? c with
  | some escape =>
    obtain ⟨mark, hmark, htext⟩ := shortEscape?_eq_some hescape
    exact .inl ⟨mark, hmark, by simp [htext]⟩
  | none =>
    right
    by_cases hhidden : isHidden c = true
    · left
      simp [hhidden, codePointEscape]
    · right
      refine ⟨?_, by simp [hhidden]⟩
      rintro rfl
      cases hescape

theorem quoted_append_ne {d : Char} (hd : d ≠ '\x27') (r r' : List Char) :
    (quoted c).toList ++ r ≠ d :: r' := by
  intro h
  rcases quoted_cases c with ⟨mark, -, hc⟩ | hc | ⟨-, hc⟩ <;> rw [hc] at h <;>
    exact hd (List.cons.inj h).1.symm

/-- Quoted characters can be told from what follows them. -/
theorem quoted_append_inj {d : Char} (h : (quoted c).toList ++ r = (quoted d).toList ++ r') :
    c = d ∧ r = r' := by
  -- A backslash tells an escape from a character, and what follows it a mark from a code point.
  rcases quoted_cases c with ⟨mark, hmark, hc⟩ | hc | ⟨hplain, hc⟩ <;>
    rcases quoted_cases d with ⟨mark', hmark', hd⟩ | hd | ⟨hplain', hd⟩ <;>
    simp only [hc, hd, List.cons_append, List.nil_append, List.append_assoc, List.cons.injEq,
      true_and] at h
  · exact ⟨(marks_unique _ hmark).2 _ hmark' h.1, h.2⟩
  · exact absurd h.1 (marks_unique _ hmark).1
  · exact absurd h.1.symm hplain'
  · exact absurd h.1.symm (marks_unique _ hmark').1
  · obtain ⟨hpoint, hrest⟩ := toDigits_append_inj (by omega) (by omega)
      (ends_cons (by decide) _) (ends_cons (by decide) _) h
    simp only [List.cons.injEq, true_and] at hrest
    exact ⟨Char.toNat_inj.mp hpoint, hrest⟩
  · exact absurd h.1.symm hplain'
  · exact absurd h.1 hplain
  · exact absurd h.1 hplain
  · exact h

/-! ## Lists -/

section Lists

variable {α β : Type} {R : α → β → Prop} {f : α → List Char} {g : β → List Char}
  {as : List α} {bs : List β} {start : Char}

theorem follow_flatMap (Follow : List Char → Prop) (hfollow : ∀ rest, Follow (start :: rest))
    (hr : Follow r) (hf : ∀ a ∈ as, (f a).head? = some start) : Follow (as.flatMap f ++ r) := by
  cases as with
  | nil => exact hr
  | cons a as =>
    obtain ⟨rest, hrest⟩ := List.head?_eq_some_iff.mp (hf a (by simp))
    rw [List.flatMap_cons, hrest]
    exact hfollow _

/-- Items that all start with one character can be told from what follows them, if that starts
with another one.  What each item needs after it is a parameter. -/
theorem flatMap_append_inj (Follow : List Char → Prop) (hfollow : ∀ rest, Follow (start :: rest))
    (hr : Follow r) (hr' : Follow r') (hend : r.head? ≠ some start)
    (hend' : r'.head? ≠ some start) (hf : ∀ a ∈ as, (f a).head? = some start)
    (hg : ∀ b ∈ bs, (g b).head? = some start)
    (hitem : ∀ a ∈ as, ∀ b ∈ bs, ∀ {r r'}, Follow r → Follow r' → f a ++ r = g b ++ r' →
      R a b ∧ r = r')
    (h : as.flatMap f ++ r = bs.flatMap g ++ r') : List.Forall₂ R as bs ∧ r = r' := by
  induction as generalizing bs with
  | nil =>
    cases bs with
    | nil => exact ⟨.nil, h⟩
    | cons b bs =>
      rw [List.flatMap_nil, List.nil_append] at h
      exact absurd (by simp [h, hg b]) hend
  | cons a as ih =>
    cases bs with
    | nil =>
      rw [List.flatMap_nil, List.nil_append] at h
      exact absurd (by simp [← h, hf a]) hend'
    | cons b bs =>
      rw [List.flatMap_cons, List.flatMap_cons, List.append_assoc, List.append_assoc] at h
      obtain ⟨hf, hfs⟩ := List.forall_mem_cons.mp hf
      obtain ⟨hg, hgs⟩ := List.forall_mem_cons.mp hg
      obtain ⟨hhead, hrest⟩ := hitem a (by simp) b (by simp)
        (follow_flatMap Follow hfollow hr hfs) (follow_flatMap Follow hfollow hr' hgs) h
      obtain ⟨htail, rfl⟩ := ih hfs hgs
        (fun a ha b hb => hitem a (by simp [ha]) b (by simp [hb])) hrest
      exact ⟨.cons hhead htail, rfl⟩

theorem head?_flatMap_ne {c : Char} (hc : start ≠ c) (hr : r.head? ≠ some c)
    (hf : ∀ a, (f a).head? = some start) : (as.flatMap f ++ r).head? ≠ some c :=
  follow_flatMap (fun rest => rest.head? ≠ some c) (by simp [hc]) hr fun a _ => hf a

/-- Lines that all start with one character, and need nothing after them. -/
theorem lines_append_inj (hend : r.head? ≠ some start) (hend' : r'.head? ≠ some start)
    (hf : ∀ a, (f a).head? = some start) (hg : ∀ b, (g b).head? = some start)
    (hline : ∀ a ∈ as, ∀ b ∈ bs, ∀ {r r'}, f a ++ r = g b ++ r' → R a b ∧ r = r')
    (h : as.flatMap f ++ r = bs.flatMap g ++ r') : List.Forall₂ R as bs ∧ r = r' :=
  flatMap_append_inj (fun _ => True) (fun _ => trivial) trivial trivial hend hend'
    (fun a _ => hf a) (fun b _ => hg b) (fun a ha b hb _ _ _ _ => hline a ha b hb) h

theorem intercalate_cons (x : List Char) (xs : List (List Char)) :
    [',', ' '].intercalate (x :: xs) = x ++ xs.flatMap fun x => ',' :: ' ' :: x := by
  induction xs generalizing x with
  | nil => simp
  | cons y ys ih => rw [List.intercalate_cons_cons, ih, List.flatMap_cons]; simp

/-- Items parted by commas can be told from what follows them, if that starts with a character
that none of them starts with. -/
theorem separated_append_inj {close : Char} (hclose : isWordChar close = false)
    (hcomma : close ≠ ',') (hf : ∀ a ∈ as, ∃ c rest, f a = c :: rest ∧ c ≠ close)
    (hg : ∀ b ∈ bs, ∃ c rest, g b = c :: rest ∧ c ≠ close)
    (hitem : ∀ a ∈ as, ∀ b ∈ bs, ∀ {r r'}, Ends r → Ends r' → f a ++ r = g b ++ r' →
      R a b ∧ r = r')
    (h : [',', ' '].intercalate (as.map f) ++ close :: r =
      [',', ' '].intercalate (bs.map g) ++ close :: r') : List.Forall₂ R as bs ∧ r = r' := by
  cases as with
  | nil =>
    cases bs with
    | nil => exact ⟨.nil, (List.cons.inj h).2⟩
    | cons b bs =>
      obtain ⟨c, rest, hc, hne⟩ := hg b (by simp)
      rw [List.map_cons, intercalate_cons, hc] at h
      exact absurd (List.cons.inj h).1.symm hne
  | cons a as =>
    cases bs with
    | nil =>
      obtain ⟨c, rest, hc, hne⟩ := hf a (by simp)
      rw [List.map_cons, intercalate_cons, hc] at h
      exact absurd (List.cons.inj h).1 hne
    | cons b bs =>
      rw [List.map_cons, List.map_cons, intercalate_cons, intercalate_cons, List.flatMap_map,
        List.flatMap_map, List.append_assoc, List.append_assoc] at h
      have hfollow : ∀ rest, Ends (',' :: rest) := ends_cons (by decide)
      have hr : ∀ rest, Ends (close :: rest) := ends_cons hclose
      have hend : ∀ rest : List Char, (close :: rest).head? ≠ some ',' := by simpa using hcomma
      obtain ⟨hhead, hrest⟩ := hitem a (by simp) b (by simp)
        (follow_flatMap Ends hfollow (hr r) (by simp))
        (follow_flatMap Ends hfollow (hr r') (by simp)) h
      obtain ⟨htail, hrest⟩ := flatMap_append_inj Ends hfollow (hr r) (hr r') (hend r) (hend r')
        (by simp) (by simp) (fun a ha b hb _ _ hr hr' heq => hitem a (by simp [ha]) b
          (by simp [hb]) hr hr' (List.cons.inj (List.cons.inj heq).2).2) hrest
      exact ⟨.cons hhead htail, (List.cons.inj hrest).2⟩

end Lists

end FrontEnd.Text
