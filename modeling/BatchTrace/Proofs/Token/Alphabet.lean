/-
The characters of cleaned tokens.

No cleaning pass makes up a character, except for the space that white space is reduced
to, and taking off parentheses only drops some.  So a character other than a space that
does not stand in a line does not stand in any of its commands.
-/
import BatchTrace.Proofs.Token.NormalForm
import BatchTrace.Proofs.Token.LetterCase

namespace BatchTrace

namespace Token

theorem stringify_subset_iff {ts : List Token} {s : Text} :
    stringify ts ⊆ s ↔ ∀ t ∈ ts, t.text ⊆ s := by
  constructor
  · intro h t ht c hc
    exact h (List.mem_flatMap.mpr ⟨t, ht, hc⟩)
  · intro h c hc
    obtain ⟨t, ht, hmem⟩ := List.mem_flatMap.mp hc
    exact h t ht hmem

section

variable {s : Text} {ts : List Token} (h : stringify ts ⊆ s)
include h

theorem stringify_subset_of_subset {us : List Token} (hsub : us ⊆ ts) : stringify us ⊆ s :=
  stringify_subset_iff.mpr fun t ht => stringify_subset_iff.mp h t (hsub ht)

theorem stringify_applyEscapes_subset : stringify (applyEscapes ts) ⊆ s := by
  refine stringify_subset_iff.mpr ?_
  intro t ht
  obtain ⟨u, hu, rfl⟩ := List.mem_map.mp ht
  have htext := stringify_subset_iff.mp h u (List.mem_of_mem_filter hu)
  split
  · exact htext
  · exact htext

theorem stringify_stripEmptyStrings_subset : stringify (stripEmptyStrings ts) ⊆ s :=
  stringify_subset_of_subset h (stripEmptyStrings_sublist ts).subset

end

theorem stringify_fuseFrom (joins : Token → Token → Bool) (t : Token) (ts : List Token) :
    stringify (fuseFrom joins t ts) = t.text ++ stringify ts := by
  induction ts generalizing t with
  | nil => rfl
  | cons next rest ih =>
    rw [fuseFrom]
    split
    · rw [ih, stringify_cons, ← List.append_assoc]
      rfl
    · rw [stringify_cons, ih, stringify_cons]

/-- Fusing tokens keeps what they spell. -/
theorem stringify_fuseRuns (joins : Token → Token → Bool) (ts : List Token) :
    stringify (fuseRuns joins ts) = stringify ts := by
  cases ts with
  | nil => rfl
  | cons t rest => exact stringify_fuseFrom joins t rest

namespace Quoted

variable {s : Text} {q : Quoted}

theorem stringify_absorb_subset {t : Token} (h : stringify q.tokens ⊆ s) (ht : t.text ⊆ s) :
    stringify (q.absorb t).tokens ⊆ s := by
  obtain ⟨opening, content, closing⟩ := q
  cases content with
  | none =>
    simp only [tokens, absorb, withKind, Option.toList_none, List.nil_append, Option.toList_some,
      List.singleton_append, stringify_cons, List.append_subset] at h ⊢
    exact ⟨h.1, ht, h.2⟩
  | some content =>
    simp only [tokens, absorb, fuse, Option.toList_some, List.singleton_append, stringify_cons,
      List.append_subset] at h ⊢
    exact ⟨h.1, ⟨h.2.1, ht⟩, h.2.2⟩

theorem stringify_foldl_absorb_subset {words : List Token} (h : stringify q.tokens ⊆ s)
    (hwords : stringify words ⊆ s) : stringify (words.foldl absorb q).tokens ⊆ s := by
  induction words generalizing q with
  | nil => exact h
  | cons t rest ih =>
    rw [stringify_cons, List.append_subset] at hwords
    exact ih (stringify_absorb_subset h hwords.1) hwords.2

theorem stringify_start_subset {words : List Token} {t : Token} (hwords : stringify words ⊆ s)
    (ht : t.text ⊆ s) : stringify (start words t).tokens ⊆ s := by
  refine stringify_foldl_absorb_subset ?_ hwords
  cases words with
  | nil => simpa [tokens] using ht
  | cons first rest => simpa [tokens] using ht

theorem stringify_extend_subset (join : Bool) {ts : List Token} (h : stringify q.tokens ⊆ s)
    (hts : stringify ts ⊆ s) : stringify (q.extend join ts) ⊆ s := by
  fun_induction extend join q ts with
  | case1 q => exact h
  | case2 q t rest hkind hjoin ih =>
    rw [stringify_cons, List.append_subset] at hts
    refine ih ?_ hts.2
    simp only [tokens, Option.toList_none, List.append_nil, stringify_cons, stringify_append,
      List.append_subset] at h ⊢
    exact ⟨h.1, h.2.1⟩
  | case3 q t rest hkind hjoin ih =>
    rw [stringify_cons, List.append_subset] at hts
    rw [stringify_append, List.append_subset]
    exact ⟨h, ih (stringify_start_subset (by simp) hts.1) hts.2⟩
  | case4 q t rest hkind ih =>
    rw [stringify_cons, List.append_subset] at hts
    refine ih ?_ hts.2
    simp only [tokens, Option.toList_some, stringify_cons, stringify_append, stringify_nil,
      List.append_nil, List.append_subset] at h ⊢
    exact ⟨h.1, h.2.1, hts.1⟩
  | case5 q t rest hbegin hend ih =>
    rw [stringify_cons, List.append_subset] at hts
    exact ih (stringify_absorb_subset h hts.1) hts.2

end Quoted

section

variable {s : Text} {ts : List Token}

theorem stringify_widenRun_subset (join : Bool) (h : stringify ts ⊆ s) :
    stringify (widenRun join ts) ⊆ s := by
  have hdrop := stringify_subset_of_subset h
    (List.dropWhile_subset (fun t : Token => t.kind ≠ .stringDquoteBegin))
  have htake := stringify_subset_of_subset h
    (List.takeWhile_subset (fun t : Token => t.kind ≠ .stringDquoteBegin))
  have hbefore := stringify_subset_of_subset htake
    fun t ht => List.mem_of_mem_filter (p := fun t => t.kind ≠ .stringDquoteEnd) ht
  unfold widenRun
  dsimp only
  split
  · exact h
  · rename_i q rest hq
    rw [hq, stringify_cons, List.append_subset] at hdrop
    exact Quoted.stringify_extend_subset join (Quoted.stringify_start_subset hbefore hdrop.1)
      hdrop.2

theorem stringify_widen_subset (join : Bool) (h : stringify ts ⊆ s) :
    stringify (widen join ts) ⊆ s := by
  fun_induction widen join ts with
  | case1 => exact h
  | case2 t rest ht ih =>
    rw [stringify_cons, List.append_subset] at h
    rw [stringify_append, List.append_subset]
    refine ⟨stringify_widenRun_subset join ?_, ih ?_⟩
    · rw [stringify_cons, List.append_subset]
      exact ⟨h.1, stringify_subset_of_subset h.2 (List.takeWhile_subset _)⟩
    · exact stringify_subset_of_subset h.2 (List.dropWhile_subset _)
  | case3 t rest ht ih =>
    rw [stringify_cons, List.append_subset] at h ⊢
    exact ⟨h.1, ih h.2⟩

variable (hs : ' ' ∈ s)
include hs

theorem stringify_stripBlanks_subset (h : stringify ts ⊆ s) : stringify (stripBlanks ts) ⊆ s := by
  refine stringify_subset_iff.mpr (forall_stripBlanks ?_ ?_ (stringify_subset_iff.mp h))
  · intro a b _ ha hb
    exact List.append_subset.mpr ⟨ha, hb⟩
  · intro t ht
    unfold singleSpace
    split
    · simpa using hs
    · exact ht

theorem stringify_stripCommas_subset (h : stringify ts ⊆ s) : stringify (stripCommas ts) ⊆ s := by
  refine stringify_stripBlanks_subset hs (stringify_subset_iff.mpr ?_)
  intro t ht
  obtain ⟨u, hu, rfl⟩ := List.mem_map.mp ht
  have htext := stringify_subset_iff.mp h u hu
  split
  · intro c hc
    obtain ⟨d, hd, rfl⟩ := List.mem_map.mp hc
    dsimp only
    split
    · exact hs
    · exact htext hd
  · exact htext

/-- Cleaning adds no character but a space. -/
theorem stringify_apply_subset (options : Cleaning) (h : stringify ts ⊆ s) :
    stringify (options.apply ts) ⊆ s := by
  have hpass : ∀ (chosen : Bool) {pass : List Token → List Token},
      (∀ {ts : List Token}, stringify ts ⊆ s → stringify (pass ts) ⊆ s) →
      ∀ {ts : List Token}, stringify ts ⊆ s → stringify (if chosen then pass ts else ts) ⊆ s := by
    intro chosen pass hpass ts h
    cases chosen with
    | false => exact h
    | true => exact hpass h
  exact hpass _ (stringify_stripCommas_subset hs) (hpass _ (stringify_stripBlanks_subset hs)
    (hpass _ (stringify_widen_subset _)
      (hpass _ (by rw [mergeLiterals, stringify_fuseRuns]; exact ·)
        (hpass _ stringify_stripEmptyStrings_subset (hpass _ stringify_applyEscapes_subset h)))))

end

end Token

namespace Block

theorem trimDelimiters_subset (ts : List Token) : trimDelimiters ts ⊆ ts := by
  intro t ht
  rw [trimDelimiters, List.mem_reverse] at ht
  have hmem := List.dropWhile_subset _ ht
  rw [List.mem_reverse] at hmem
  exact List.dropWhile_subset _ hmem

theorem subset_of_inner? {ts us : List Token} (h : inner? ts = some us) : us ⊆ ts := by
  obtain ⟨opening, closing, rfl, -, -⟩ := inner?_eq_some_iff.mp h
  exact List.subset_cons_of_subset opening (List.subset_append_left us [closing])

/-- Taking off parentheses only drops tokens. -/
theorem peel_subset (ts : List Token) : peel ts ⊆ ts := by
  fun_induction peel ts with
  | case1 ts us hinner ih =>
    exact List.Subset.trans ih
      (List.Subset.trans (subset_of_inner? hinner) (trimDelimiters_subset ts))
  | case2 ts hinner => exact trimDelimiters_subset ts

end Block

end BatchTrace
