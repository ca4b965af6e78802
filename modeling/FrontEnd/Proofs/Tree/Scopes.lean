import FrontEnd.Proofs.Phrase.Basic
import FrontEnd.Tree.Scope
import Mathlib.Data.List.Induction
import Mathlib.Data.List.Nodup

/-!
# Scopes of first entries

A scope that is filled entry by entry keeps the first entry of each name, and leaves out the later
ones.  When the last of the entries are taken out again, one after the other, what is left is the
scope of those before them.  When each of them is taken out and put back at once, the scope is as
it was, order included: the entries that come back do so in the order in which they stood.

## Main definitions

* `Scope.enroll`, `Scope.release`: bind a name unless it is bound, and unbind an entry.
* `IsFirst`: an entry whose name no earlier entry has.

## Main statements

* `Scope.mem_ofEntries_iff`, `Scope.sublist_ofEntries`: which entries a scope keeps.
* `Scope.foldl_release_ofEntries`, `Scope.foldl_renew_ofEntries`: taking entries out.
-/

namespace FrontEnd

/-- An entry of a list whose name no earlier one has. -/
def IsFirst (e : Ident × NodeId) (entries : List (Ident × NodeId)) : Prop :=
  ∃ before after, entries = before ++ e :: after ∧ ∀ d ∈ before, d.1.same e.1 = false

namespace Scope

variable {s : Scope} {e : Ident × NodeId} {entries kept moved : List (Ident × NodeId)}

/-- Bind a name, unless it is bound. -/
def enroll (s : Scope) (e : Ident × NodeId) : Scope :=
  if s.contains e.1 then s else s.append e.1 e.2

/-- Unbind a name, if it is bound to this node. -/
def release (s : Scope) (e : Ident × NodeId) : Scope :=
  if s.lookup e.1 = some e.2 then s.erase e.1 else s

/-- Take an entry out and put it back. -/
def renew (s : Scope) (e : Ident × NodeId) : Scope := (s.release e).enroll e

/-! ## Reading scopes -/

variable {name : Ident}

theorem contains_iff : s.contains name = true ↔ ∃ d ∈ s.entries, d.1.same name = true := by
  simp [contains, lookup]

theorem mem_of_lookup {node : NodeId} (h : s.lookup name = some node) :
    ∃ d ∈ s.entries, d.1.same name = true ∧ d.2 = node := by
  obtain ⟨d, hfind, hd⟩ := Option.map_eq_some_iff.mp h
  have hsame := List.find?_some hfind
  exact ⟨d, List.mem_of_find?_eq_some hfind, hsame, hd⟩

/-- Where names are distinct, an entry stands before and after entries of other names. -/
theorem same_eq_false {before after : List (Ident × NodeId)}
    (h : DistinctNames ((before ++ e :: after).map Prod.fst)) :
    ∀ d ∈ before ++ after, d.1.same e.1 = false := by
  rw [List.map_append, List.map_cons, distinctNames_append] at h
  obtain ⟨-, hafter, hcross⟩ := h
  intro d hd
  rcases List.mem_append.mp hd with hd | hd
  · exact hcross d.1 (List.mem_map_of_mem hd) e.1 (by simp)
  · rw [← List.singleton_append, distinctNames_append] at hafter
    rw [Ident.same_comm]
    exact hafter.2.2 e.1 (by simp) d.1 (List.mem_map_of_mem hd)

/-! ## Filling a scope -/

theorem ofEntries_append (entries more : List (Ident × NodeId)) :
    ofEntries (entries ++ more) = more.foldl enroll (ofEntries entries) :=
  List.foldl_append

theorem distinctNames_enroll (h : DistinctNames (s.entries.map Prod.fst)) :
    DistinctNames ((s.enroll e).entries.map Prod.fst) := by
  unfold enroll
  split
  · exact h
  · refine distinctNames_map_snoc h fun d hd => ?_
    rw [← Bool.not_eq_true]
    intro hsame
    exact absurd (contains_iff.mpr ⟨d, hd, hsame⟩) ‹_›

/-- The entries that a scope takes in come behind those that it had, in order. -/
theorem entries_foldl_enroll (s : Scope) (entries : List (Ident × NodeId)) :
    ∃ new, new.Sublist entries ∧ (entries.foldl enroll s).entries = s.entries ++ new := by
  induction entries generalizing s with
  | nil => exact ⟨[], .slnil, by simp⟩
  | cons e entries ih =>
    obtain ⟨new, hnew, heq⟩ := ih (s.enroll e)
    by_cases hbound : s.contains e.1
    · refine ⟨new, hnew.cons e, ?_⟩
      rw [List.foldl_cons, heq, enroll, if_pos hbound]
    · refine ⟨e :: new, hnew.cons_cons e, ?_⟩
      rw [List.foldl_cons, heq, enroll, if_neg hbound, append]
      simp

theorem sublist_ofEntries (entries : List (Ident × NodeId)) :
    (ofEntries entries).entries.Sublist entries := by
  obtain ⟨new, hnew, heq⟩ := entries_foldl_enroll empty entries
  exact (show (ofEntries entries).entries = new from heq) ▸ hnew

theorem distinctNames_ofEntries (entries : List (Ident × NodeId)) :
    DistinctNames ((ofEntries entries).entries.map Prod.fst) := by
  induction entries using List.reverseRecOn with
  | nil => exact distinctNames_nil
  | append_singleton entries e ih =>
    rw [ofEntries_append]
    exact distinctNames_enroll ih

/-- Every entry has its name bound, by itself or by an earlier one. -/
theorem contains_ofEntries_iff :
    (ofEntries entries).contains name = true ↔ ∃ d ∈ entries, d.1.same name = true := by
  induction entries using List.reverseRecOn with
  | nil => simp [ofEntries, contains]
  | append_singleton entries e ih =>
    rw [ofEntries_append, List.foldl_cons, List.foldl_nil, enroll]
    by_cases hbound : (ofEntries entries).contains e.1 = true
    · rw [if_pos hbound, ih]
      constructor
      · rintro ⟨d, hd, hsame⟩
        exact ⟨d, by simp [hd], hsame⟩
      · rintro ⟨d, hd, hsame⟩
        rcases List.mem_append.mp hd with hd | hd
        · exact ⟨d, hd, hsame⟩
        · obtain rfl := List.mem_singleton.mp hd
          obtain ⟨d', hd', hsame'⟩ := contains_iff.mp hbound
          exact ⟨d', (sublist_ofEntries entries).subset hd', Ident.same_trans hsame' hsame⟩
    · have happend : ((ofEntries entries).append e.1 e.2).contains name = true ↔
          (ofEntries entries).contains name = true ∨ e.1.same name = true := by
        simp [contains_iff, append, or_and_right, exists_or]
      rw [if_neg hbound, happend, ih]
      simp [or_and_right, exists_or]

/-- A scope keeps the first entry of each name. -/
theorem mem_ofEntries_iff : e ∈ (ofEntries entries).entries ↔ IsFirst e entries := by
  induction entries using List.reverseRecOn with
  | nil => simp [ofEntries, empty, IsFirst]
  | append_singleton entries d ih =>
    rw [ofEntries_append, List.foldl_cons, List.foldl_nil, enroll]
    have hlater : ∀ {before after}, entries ++ [d] = before ++ e :: after →
        (∃ rest, after = rest ++ [d] ∧ entries = before ++ e :: rest) ∨
          after = [] ∧ e = d ∧ before = entries := by
      intro before after heq
      rcases List.eq_nil_or_concat after with rfl | ⟨rest, last, rfl⟩
      · obtain ⟨rfl, hlast⟩ := List.append_inj' heq rfl
        exact .inr ⟨rfl, (List.singleton_injective hlast).symm, rfl⟩
      · rw [List.concat_eq_append, ← List.cons_append, ← List.append_assoc] at heq
        obtain ⟨rfl, hlast⟩ := List.append_inj' heq rfl
        obtain rfl := List.singleton_injective hlast
        exact .inl ⟨rest, by simp, rfl⟩
    have hmore : IsFirst e entries → IsFirst e (entries ++ [d]) := by
      rintro ⟨before, after, rfl, hnew⟩
      exact ⟨before, after ++ [d], by simp, hnew⟩
    by_cases hbound : (ofEntries entries).contains d.1 = true
    · rw [if_pos hbound, ih]
      refine ⟨hmore, ?_⟩
      rintro ⟨before, after, heq, hnew⟩
      rcases hlater heq with ⟨rest, -, rfl⟩ | ⟨-, rfl, rfl⟩
      · exact ⟨before, rest, rfl, hnew⟩
      · obtain ⟨d', hd', hsame⟩ := contains_ofEntries_iff.mp hbound
        rw [hnew d' hd'] at hsame
        cases hsame
    · rw [if_neg hbound, append, List.mem_append, ih, List.mem_singleton]
      constructor
      · rintro (hfirst | rfl)
        · exact hmore hfirst
        · refine ⟨entries, [], rfl, fun d' hd' => ?_⟩
          rw [← Bool.not_eq_true]
          intro hsame
          exact hbound (contains_ofEntries_iff.mpr ⟨d', hd', hsame⟩)
      · rintro ⟨before, after, heq, hnew⟩
        rcases hlater heq with ⟨rest, -, rfl⟩ | ⟨-, rfl, -⟩
        · exact .inl ⟨before, rest, rfl, hnew⟩
        · exact .inr rfl

/-! ## Taking entries out -/

/-- An entry that a scope has is taken out. -/
theorem release_of_mem {before after : List (Ident × NodeId)}
    (h : DistinctNames ((before ++ e :: after).map Prod.fst)) :
    (⟨before ++ e :: after⟩ : Scope).release e = ⟨before ++ after⟩ := by
  have hbefore : ∀ d ∈ before, ¬ d.1.same e.1 = true := by
    intro d hd
    simp [same_eq_false h d (by simp [hd])]
  have hlookup : (⟨before ++ e :: after⟩ : Scope).lookup e.1 = some e.2 := by
    rw [lookup, List.find?_append, List.find?_eq_none.mpr hbefore]
    simp
  rw [release, if_pos hlookup, erase, List.eraseP_append_right _ hbefore]
  simp

/-- An entry that a scope does not have leaves it as it is. -/
theorem release_of_not_mem (hnode : ∀ d ∈ s.entries, d.2 ≠ e.2) : s.release e = s := by
  rw [release, if_neg]
  intro hlookup
  obtain ⟨d, hd, -, heq⟩ := mem_of_lookup hlookup
  exact hnode d hd heq

/-- The last entries of a scope are taken out, one after the other. -/
theorem foldl_release {first last entries : List (Ident × NodeId)} (hlast : last.Sublist entries)
    (hnames : DistinctNames ((first ++ last).map Prod.fst))
    (hnodes : ((first ++ entries).map Prod.snd).Nodup) :
    entries.foldl release ⟨first ++ last⟩ = ⟨first⟩ := by
  induction hlast with
  | slnil => simp
  | @cons last entries e hsub ih =>
    have hother : ∀ d ∈ first ++ last, d.2 ≠ e.2 := by
      rw [List.map_append, List.map_cons, List.nodup_append, List.nodup_cons] at hnodes
      intro d hd
      rcases List.mem_append.mp hd with hd | hd
      · exact hnodes.2.2 d.2 (List.mem_map_of_mem hd) e.2 (by simp)
      · rintro heq
        exact hnodes.2.1.1 (heq ▸ List.mem_map_of_mem (hsub.subset hd))
    rw [List.foldl_cons, release_of_not_mem hother]
    exact ih hnames (hnodes.sublist (((List.sublist_cons_self e entries).append_left first).map _))
  | @cons_cons last entries e hsub ih =>
    have hrest := ((List.sublist_cons_self e last).append_left first).map Prod.fst
    rw [List.foldl_cons, release_of_mem hnames]
    exact ih (hnames.sublist (hrest.map Ident.key))
      (hnodes.sublist (((List.sublist_cons_self e entries).append_left first).map _))

/-- Entries that are taken out and put back come behind the others, in order. -/
theorem foldl_renew {first mid last entries : List (Ident × NodeId)} (hmid : mid.Sublist entries)
    (hnames : DistinctNames ((first ++ mid ++ last).map Prod.fst))
    (hbound : ∀ e ∈ entries, ∃ d ∈ first ++ mid ++ last, d.1.same e.1 = true)
    (hnodes : ((first ++ last ++ entries).map Prod.snd).Nodup) :
    entries.foldl renew ⟨first ++ mid ++ last⟩ = ⟨first ++ last ++ mid⟩ := by
  induction hmid generalizing last with
  | slnil => simp
  | @cons mid entries e hsub ih =>
    -- The name of `e` is bound by another entry, so that `e` is neither out nor let in.
    have hother : ∀ d ∈ first ++ mid ++ last, d.2 ≠ e.2 := by
      rw [List.map_append, List.map_cons, List.nodup_append, List.nodup_cons] at hnodes
      intro d hd
      rw [List.append_assoc, List.mem_append, List.mem_append] at hd
      rcases hd with hd | hd | hd
      · exact hnodes.2.2 d.2 (List.mem_map_of_mem (by simp [hd])) e.2 (by simp)
      · rintro heq
        exact hnodes.2.1.1 (heq ▸ List.mem_map_of_mem (hsub.subset hd))
      · exact hnodes.2.2 d.2 (List.mem_map_of_mem (by simp [hd])) e.2 (by simp)
    have hstays : (⟨first ++ mid ++ last⟩ : Scope).renew e = ⟨first ++ mid ++ last⟩ := by
      rw [renew, release_of_not_mem hother, enroll, if_pos]
      exact contains_iff.mpr (hbound e (by simp))
    rw [List.foldl_cons, hstays]
    refine ih hnames (fun d hd => hbound d (by simp [hd])) (hnodes.sublist ?_)
    exact ((List.sublist_cons_self e entries).append_left _).map _
  | @cons_cons mid entries e hsub ih =>
    rw [List.append_assoc, List.cons_append] at hnames
    have hothers := same_eq_false hnames
    have hmoves : (⟨first ++ e :: mid ++ last⟩ : Scope).renew e =
        ⟨first ++ mid ++ (last ++ [e])⟩ := by
      rw [renew, List.append_assoc, List.cons_append, release_of_mem hnames, enroll, if_neg, append]
      · simp
      · rw [contains_iff]
        rintro ⟨d, hd, hsame⟩
        rw [hothers d hd] at hsame
        cases hsame
    have hperm : (first ++ mid ++ (last ++ [e])).Perm (first ++ e :: (mid ++ last)) := by
      rw [List.append_assoc]
      refine List.Perm.append_left first ?_
      rw [← List.append_assoc]
      exact List.perm_append_singleton e (mid ++ last)
    rw [List.foldl_cons, hmoves, ih]
    · simp
    · exact ((hperm.map _).map _).nodup_iff.mpr hnames
    · intro d hd
      obtain ⟨d', hd', hsame⟩ := hbound d (by simp [hd])
      exact ⟨d', hperm.mem_iff.mpr (by simpa using hd'), hsame⟩
    · simpa using hnodes

/-- Entries that come later leave those of a scope where they are. -/
theorem exists_ofEntries_append (kept moved : List (Ident × NodeId)) :
    ∃ new, new.Sublist moved ∧ ofEntries (kept ++ moved) = ⟨(ofEntries kept).entries ++ new⟩ := by
  obtain ⟨new, hnew, heq⟩ := entries_foldl_enroll (ofEntries kept) moved
  rw [ofEntries_append]
  exact ⟨new, hnew, congrArg Scope.mk heq⟩

variable (hnodes : ((kept ++ moved).map Prod.snd).Nodup)
include hnodes

/-- Without its last entries, a scope is that of the entries before them. -/
theorem foldl_release_ofEntries :
    moved.foldl release (ofEntries (kept ++ moved)) = ofEntries kept := by
  have hnames := distinctNames_ofEntries (kept ++ moved)
  obtain ⟨new, hnew, hscope⟩ := exists_ofEntries_append kept moved
  rw [hscope] at hnames ⊢
  exact foldl_release hnew hnames
    (hnodes.sublist (((sublist_ofEntries kept).append_right moved).map _))

/-- Renewing the last entries of a scope, in order, changes nothing. -/
theorem foldl_renew_ofEntries :
    moved.foldl renew (ofEntries (kept ++ moved)) = ofEntries (kept ++ moved) := by
  have hnames := distinctNames_ofEntries (kept ++ moved)
  have hbound : ∀ e ∈ moved, ∃ d ∈ (ofEntries (kept ++ moved)).entries, d.1.same e.1 = true :=
    fun e he => contains_iff.mp
      (contains_ofEntries_iff.mpr ⟨e, by simp [he], Ident.same_refl e.1⟩)
  obtain ⟨new, hnew, hscope⟩ := exists_ofEntries_append kept moved
  rw [hscope] at hnames hbound ⊢
  have hrun : moved.foldl renew ⟨(ofEntries kept).entries ++ new ++ []⟩ =
      ⟨(ofEntries kept).entries ++ [] ++ new⟩ :=
    foldl_renew hnew (by simpa using hnames) (by simpa using hbound)
      (by simpa using hnodes.sublist (((sublist_ofEntries kept).append_right moved).map _))
  simpa using hrun

end Scope

end FrontEnd
