/-
Folding closed strings.

`Folds` says what it is to fold the closed strings of a list of tokens: going along the list, an
opening quote whose string is closed goes with all of the string into one token, and every other
token stays as it is.  `collapse` does just this.  Folding keeps what the tokens spell, and of two
lists each can be folded by itself if the second does not go on with a string of the first.
-/
import BatchTrace.Proofs.Token.StandardForm

namespace BatchTrace

theorem mem_getLast?_cons {α : Type} {x u : α} {l : List α} :
    u ∈ (x :: l).getLast? ↔ (l = [] ∧ u = x) ∨ u ∈ l.getLast? := by
  cases l with
  | nil => simp [eq_comm]
  | cons y l => simp [List.getLast?_cons]

namespace Token

open StringPlace

@[simp]
theorem kind_folded (opening closing : Token) (content : List Token) :
    (folded opening content closing).kind = .stringDquote := rfl

/-- The tokens `us` are `ts` with every closed string as one token. -/
inductive Folds : List Token → List Token → Prop
  | nil : Folds [] []
  | kept {t : Token} {ts us : List Token} (ht : t.kind = .stringDquoteBegin → ¬ Closes ts)
      (h : Folds ts us) : Folds (t :: ts) (t :: us)
  | closed {opening closing : Token} {content ts us : List Token}
      (hopening : opening.kind = .stringDquoteBegin)
      (hcontent : ∀ t ∈ content, t.kind = .stringDquoteChar)
      (hclosing : closing.kind = .stringDquoteEnd) (h : Folds ts us) :
      Folds (opening :: (content ++ closing :: ts)) (folded opening content closing :: us)

/-- What follows the content of a string decides whether it is closed. -/
theorem closes_iff {rest : List Token} :
    Closes rest ↔ ∃ closing after, rest.dropWhile (·.kind = .stringDquoteChar) = closing :: after ∧
      closing.kind = .stringDquoteEnd := by
  constructor
  · rintro ⟨content, closing, more, rfl, hcontent, hclosing⟩
    refine ⟨closing, more, ?_, hclosing⟩
    rw [dropWhile_run (by simpa using hcontent) (by simp [hclosing])]
  · rintro ⟨closing, after, hdrop, hclosing⟩
    refine ⟨rest.takeWhile (·.kind = .stringDquoteChar), closing, after, ?_, ?_, hclosing⟩
    · rw [← hdrop, List.takeWhile_append_dropWhile]
    · intro t ht
      simpa using List.mem_takeWhile_imp ht

/-- **`collapse` folds the closed strings.** -/
theorem folds_collapse (ts : List Token) : Folds ts (collapse ts) := by
  fun_induction collapse ts with
  | case1 => exact .nil
  | case2 opening rest hopening closing after hdrop hclosing ih =>
      have hrest : rest.takeWhile (·.kind = .stringDquoteChar) ++ closing :: after = rest := by
        rw [← hdrop, List.takeWhile_append_dropWhile]
      have hcontent : ∀ t ∈ rest.takeWhile (·.kind = .stringDquoteChar),
          t.kind = .stringDquoteChar := by
        intro t ht
        simpa using List.mem_takeWhile_imp ht
      have hfolds := Folds.closed hopening hcontent hclosing ih
      rwa [hrest] at hfolds
  | case3 opening rest hopening closing after hdrop hclosing ih =>
      refine .kept (fun _ hcloses => ?_) ih
      obtain ⟨u, more, hu, hkind⟩ := closes_iff.mp hcloses
      rw [hdrop] at hu
      exact hclosing ((List.cons.inj hu).1 ▸ hkind)
  | case4 opening rest hopening hdrop ih =>
      refine .kept (fun _ hcloses => ?_) ih
      obtain ⟨u, more, hu, -⟩ := closes_iff.mp hcloses
      simp [hdrop] at hu
  | case5 t rest ht ih => exact .kept (fun hopening => absurd hopening ht) ih

/-- No string that was opened before goes on with these tokens. -/
def StartsAfresh (ts : List Token) : Prop :=
  ∀ t ∈ ts.head?, t.kind ≠ .stringDquoteChar ∧ t.kind ≠ .stringDquoteEnd

theorem StartsAfresh.closes_of_append {ts us : List Token} (hus : StartsAfresh us)
    (h : Closes (ts ++ us)) : Closes ts := by
  obtain ⟨content, closing, more, heq, hcontent, hclosing⟩ := h
  rcases List.append_eq_append_iff.mp heq with ⟨as, rfl, hus'⟩ | ⟨bs, rfl, hmore⟩
  · -- The string would go on in the second list, with content or with its closing quote.
    exfalso
    cases as with
    | nil =>
        rw [List.nil_append] at hus'
        exact (hus closing (by rw [hus']; rfl)).2 hclosing
    | cons a as => exact (hus a (by rw [hus']; rfl)).1 (hcontent a (by simp))
  · cases bs with
    | nil =>
        rw [List.nil_append] at hmore
        exact absurd hclosing (hus closing (by rw [← hmore]; rfl)).2
    | cons b bs =>
        obtain ⟨rfl, rfl⟩ := List.cons.inj hmore
        exact ⟨content, closing, bs, rfl, hcontent, hclosing⟩

namespace Folds

variable {ts us ts' us' : List Token}

theorem collapse_eq (h : Folds ts us) : collapse ts = us := by
  induction h with
  | nil => rw [collapse]
  | @kept t ts us ht _ ih =>
      rw [collapse]
      split
      · rename_i hopening
        split
        · rename_i closing after hdrop
          rw [if_neg fun hclosing => ht hopening (closes_iff.mpr ⟨closing, after, hdrop, hclosing⟩),
            ih]
        · rw [ih]
      · rw [ih]
  | @closed opening closing content ts us hopening hcontent hclosing _ ih =>
      have hrun : ∀ t ∈ content, decide (t.kind = .stringDquoteChar) = true := by
        simpa using hcontent
      have hend : ∀ t ∈ (closing :: ts).head?, decide (t.kind = .stringDquoteChar) = false := by
        simp [hclosing]
      rw [collapse, if_pos hopening]
      split
      · rename_i hdrop
        rw [dropWhile_run hrun hend] at hdrop
        obtain ⟨rfl, rfl⟩ := List.cons.inj hdrop
        rw [if_pos hclosing, takeWhile_run hrun hend, ih]
      · rename_i hdrop
        rw [dropWhile_run hrun hend] at hdrop
        simp at hdrop

/-- Where no string opens, nothing is folded. -/
theorem prepend {front : List Token} (hfront : ∀ t ∈ front, t.kind ≠ .stringDquoteBegin)
    (h : Folds ts us) : Folds (front ++ ts) (front ++ us) := by
  induction front with
  | nil => exact h
  | cons t front ih =>
      refine .kept (fun hopening => absurd hopening (hfront t (by simp))) (ih fun u hu => ?_)
      exact hfront u (by simp [hu])

theorem of_unopened (h : ∀ t ∈ ts, t.kind ≠ .stringDquoteBegin) : Folds ts ts := by
  simpa using prepend h .nil

theorem append (h : Folds ts us) (hs : Folds ts' us') (hts' : StartsAfresh ts') :
    Folds (ts ++ ts') (us ++ us') := by
  induction h with
  | nil => exact hs
  | kept ht _ ih => exact .kept (fun hopening => mt hts'.closes_of_append (ht hopening)) ih
  | closed hopening hcontent hclosing _ ih =>
      rw [List.cons_append, List.append_assoc]
      exact .closed hopening hcontent hclosing ih

theorem stringify_eq (h : Folds ts us) : stringify us = stringify ts := by
  induction h with
  | nil => rfl
  | kept _ _ ih => rw [stringify_cons, ih, stringify_cons]
  | closed _ _ _ _ ih => simp [folded, ih]

/-- What holds of the kinds before folding and of a folded string holds after it. -/
theorem forall_kind {p : Kind → Prop} (h : Folds ts us) (hstring : p .stringDquote)
    (hts : ∀ t ∈ ts, p t.kind) : ∀ u ∈ us, p u.kind := by
  induction h with
  | nil => simp
  | kept _ _ ih =>
      exact List.forall_mem_cons.mpr ⟨hts _ (by simp), ih fun t ht => hts t (by simp [ht])⟩
  | closed _ _ _ _ ih =>
      exact List.forall_mem_cons.mpr ⟨hstring, ih fun t ht => hts t (by simp [ht])⟩

theorem eq_nil_iff (h : Folds ts us) : us = [] ↔ ts = [] := by
  cases h <;> simp

theorem mem_head? (h : Folds ts us) {u : Token} (hu : u ∈ us.head?) :
    u.kind = .stringDquote ∨ u ∈ ts.head? := by
  cases h with
  | nil => simp at hu
  | kept => exact Or.inr hu
  | closed => exact Or.inl (Option.some.inj hu ▸ rfl)

theorem mem_getLast? (h : Folds ts us) {u : Token} (hu : u ∈ us.getLast?) :
    u.kind = .stringDquote ∨ u ∈ ts.getLast? := by
  induction h with
  | nil => simp at hu
  | @kept t ts us _ hs ih =>
      rcases mem_getLast?_cons.mp hu with ⟨hnil, rfl⟩ | hu
      · exact Or.inr (mem_getLast?_cons.mpr (Or.inl ⟨hs.eq_nil_iff.mp hnil, rfl⟩))
      · exact (ih hu).imp id fun hmem => mem_getLast?_cons.mpr (Or.inr hmem)
  | @closed opening closing content ts us _ _ _ _ ih =>
      rcases mem_getLast?_cons.mp hu with ⟨-, rfl⟩ | hu
      · exact Or.inl rfl
      · refine (ih hu).imp id fun hmem => ?_
        rw [← List.cons_append, List.getLast?_append_cons]
        exact mem_getLast?_cons.mpr (Or.inr hmem)

/-- Folding closed strings leaves a string open at the end if there was one. -/
theorem strung (h : Folds ts us) {r : StringPlace} (hts : Strung outside ts r) :
    Strung outside us r := by
  induction h with
  | nil => exact hts
  | @kept t ts us ht hs ih =>
      by_cases hopening : t.kind = .stringDquoteBegin
      · obtain ⟨-, hrest⟩ := hts.of_opening hopening
        -- The string that is not closed is the last one, so nothing behind its quote is folded.
        obtain ⟨-, hchars, -⟩ := hrest.of_not_closes (ht hopening)
        have hsame : us = ts := by
          rw [← hs.collapse_eq, (of_unopened fun u hu => by simp [hchars u hu]).collapse_eq]
        rwa [hsame]
      · cases hts with
        | cons hx hrest =>
            have hother : t.kind.isDquotePiece = false := by
              generalize t.kind = k at hx hopening
              cases hx with
              | other hk => exact hk
              | opening => exact absurd rfl hopening
            obtain ⟨-, rfl⟩ := hx.of_other hother
            exact .cons hx (ih hrest)
  | @closed opening closing content ts us hopening _ hclosing _ ih =>
      obtain ⟨-, hrest⟩ := hts.of_opening hopening
      obtain ⟨q, -, hclose⟩ := hrest.exists_of_append
      cases hclose with
      | cons hx hs =>
          rw [hclosing] at hx
          obtain ⟨-, rfl⟩ := hx.of_closing
          exact .cons (.other rfl) (ih hs)

end Folds

end Token

end BatchTrace
