/-
Quotes in front of a chain operator.

Whether a character stands between quotes can be read off the text alone by counting the
double quotes in front of it, as long as nothing else can quote or escape.  The reader agrees
with this count where a command or a value is read and in a quoted assignment, for there it
reads a string as a whole: it leaves a string open only at the end of the text.  In the name of
an assignment it does not: a quote there is one more character of the name.  So in front of a
chain operator the number of quotes is even or odd as the number of those in names is.
-/
import BatchTrace.Proofs.Token.SetRegion
import Mathlib.Algebra.Ring.Parity

namespace BatchTrace

namespace Lexeme

/-- What lexemes spell outside the names of assignments. -/
def unnamed (xs : List Lexeme) : Text :=
  spell (xs.filter (·.kind ≠ .setName))

@[simp] theorem unnamed_nil : unnamed [] = [] := rfl

@[simp] theorem unnamed_append (xs ys : List Lexeme) :
    unnamed (xs ++ ys) = unnamed xs ++ unnamed ys := by
  simp [unnamed]

theorem unnamed_cons (x : Lexeme) (xs : List Lexeme) :
    unnamed (x :: xs) = unnamed [x] ++ unnamed xs :=
  unnamed_append [x] xs

theorem unnamed_subset (xs : List Lexeme) : unnamed xs ⊆ spell xs := by
  intro c hc
  obtain ⟨x, hx, hcx⟩ := List.mem_flatMap.mp hc
  exact List.mem_flatMap.mpr ⟨x, (List.mem_filter.mp hx).1, hcx⟩

theorem unnamed_join (xs : List Lexeme) : unnamed (join xs) = unnamed xs :=
  spell_filter_join (p := (· ≠ .setName)) xs

/-- A lexeme that is never joined stands in the same place before joining. -/
theorem exists_of_join {xs pre post : List Lexeme} {x : Lexeme} (hx : isPieced x.kind = false)
    (h : join xs = pre ++ x :: post) :
    ∃ pre' post', xs = pre' ++ x :: post' ∧ join pre' = pre := by
  induction xs generalizing pre with
  | nil => simp [join] at h
  | cons y rest ih =>
      rw [join] at h
      cases hjoin : join rest with
      | nil =>
          rw [hjoin] at h
          obtain ⟨rfl, hsame⟩ | ⟨_, rfl, hrest⟩ := List.cons_eq_append_iff.mp h
          · exact ⟨[], rest, by rw [(List.cons.inj hsame).1]; rfl, rfl⟩
          · simp at hrest
      | cons z joined =>
          rw [hjoin] at h ih
          dsimp only at h
          by_cases hpieced : (isPieced y.kind && y.kind == z.kind) = true
          · -- The two are joined, so what is looked for stands after them.
            rw [if_pos hpieced] at h
            obtain ⟨-, hsame⟩ | ⟨pre, rfl, hrest⟩ := List.cons_eq_append_iff.mp h
            · rw [(List.cons.inj hsame).1, (Bool.and_eq_true_iff.mp hpieced).1] at hx
              exact absurd hx (by simp)
            · have hagain : z :: joined = (z :: pre) ++ x :: post := by rw [hrest]; rfl
              obtain ⟨pre', post', rfl, hpre⟩ := ih hagain
              exact ⟨y :: pre', post', rfl, by rw [join, hpre]; exact if_pos hpieced⟩
          · rw [if_neg hpieced] at h
            obtain ⟨rfl, hsame⟩ | ⟨pre, rfl, hrest⟩ := List.cons_eq_append_iff.mp h
            · exact ⟨[], rest, by rw [(List.cons.inj hsame).1]; rfl, rfl⟩
            · obtain ⟨pre', post', rfl, hpre⟩ := ih hrest
              refine ⟨y :: pre', post', rfl, ?_⟩
              rw [join, hpre]
              cases pre with
              | nil => rfl
              | cons w pre =>
                  rw [(List.cons.inj hrest).1] at hpieced
                  exact if_neg hpieced

end Lexeme

namespace Lexer

open Lexeme

/-- The step reads strings as wholes, unless the text ends with it. -/
def Step.Paired (s : Step) : Prop :=
  s.rest = [] ∨ Even ((unnamed s.out).count '"')

theorem paired_of_not_mem {s : Step} (h : '"' ∉ spell s.out) : s.Paired := by
  right
  rw [List.count_eq_zero_of_not_mem fun hmem => h (unnamed_subset _ hmem)]
  exact ⟨0, rfl⟩

theorem paired_single {k : Kind} {t : Text} (h : '"' ∉ t) (mode : Mode) (rest : Text) :
    Step.Paired ⟨[⟨k, t⟩], mode, rest⟩ :=
  paired_of_not_mem (by simpa using h)

theorem paired_assign {before : Kind} (hknown : before ≠ .unrecognized) (stay : Mode) {run : Text}
    (hne : run ≠ []) (hrun : '"' ∉ run) (rest : Text) : (assign before stay run rest).Paired := by
  obtain ⟨taken, htaken, heq⟩ := reads_assign hknown stay hne rest
  rw [rest_assign] at heq
  refine paired_of_not_mem ?_
  rwa [htaken.spelled, List.append_cancel_right heq]

/-- What is read up to a closing quote has two quotes, unless the text ends before. -/
theorem paired_upToQuote {inner : Text → List Lexeme} {opening closing : Kind}
    (hopening : opening ≠ .setName) (hclosing : closing ≠ .setName)
    (hspell : ∀ body, spell (inner body) = body) (mode : Mode) (rest : Text) :
    Step.Paired ⟨⟨opening, ['"']⟩ :: (upToQuote inner closing rest).1, mode,
      (upToQuote inner closing rest).2⟩ := by
  by_cases h : '"' ∈ rest
  · obtain ⟨body, after, rfl, hbody⟩ := List.eq_append_cons_of_mem h
    have hinner : (unnamed (inner body)).count '"' = 0 :=
      List.count_eq_zero_of_not_mem fun hmem => hbody (hspell body ▸ unnamed_subset _ hmem)
    have hfirst : unnamed [⟨opening, ['"']⟩] = ['"'] := by simp [unnamed, hopening]
    have hlast : unnamed [⟨closing, ['"']⟩] = ['"'] := by simp [unnamed, hclosing]
    right
    rw [upToQuote_closed hbody, unnamed_cons, unnamed_append, hfirst, hlast, List.count_append,
      List.count_append, hinner]
    decide
  · left
    rw [upToQuote_open h]

theorem paired_string (mode : Mode) (rest : Text) :
    Step.Paired ⟨⟨.stringDquoteBegin, ['"']⟩ :: (doubleQuoted rest).1, mode,
      (doubleQuoted rest).2⟩ := by
  rw [doubleQuoted_eq]
  exact paired_upToQuote (by decide) (by decide)
    (fun body => (Covers.ofText (by simp) body).spelled) mode rest

/-- Where there are neither single quotes nor carets, every step is of this form. -/
theorem paired_step (mode : Mode) {t rest : Text} {chunk : Chunk}
    (h : Chunk.next? t = some (chunk, rest)) (hquote : '\'' ∉ t) (hcaret : '^' ∉ t) :
    (step mode chunk rest).Paired := by
  have htext := Chunk.text_append_of_next? h
  have hformed := Chunk.wellFormed_of_next? h
  have hnot : ∀ {c : Char}, c ∉ t → c ∉ chunk.text := fun hc hmem =>
    hc (htext ▸ List.mem_append_left rest hmem)
  cases chunk with
  | escape c => exact absurd (by simp [Chunk.text]) (hnot hcaret)
  | caret => exact absurd (by simp [Chunk.text]) (hnot hcaret)
  | singleQuote => exact absurd (by simp [Chunk.text]) (hnot hquote)
  | doubleQuote =>
      cases mode with
      | command => exact paired_string .command rest
      | lead =>
          exact paired_upToQuote (by decide) (by decide)
            (fun body => (covers_quotedAssignment body).spelled) .command rest
      | name => exact Or.inr ⟨0, rfl⟩
      | value => exact paired_string .value rest
  | delimiter run =>
      have hrun : '"' ∉ run := fun hmem => absurd (hformed.2 _ hmem) (by decide)
      cases mode with
      | command => exact paired_single hrun _ _
      | lead => exact paired_assign (by decide) .lead hformed.1 hrun rest
      | name => exact paired_assign (by decide) .name hformed.1 hrun rest
      | value => exact paired_single hrun _ _
  | word run =>
      have hrun : '"' ∉ run := fun hmem => absurd (hformed.2 _ hmem) (by decide)
      cases mode <;> exact paired_single hrun _ _
  | lParen => cases mode <;> exact paired_single (by decide) _ _
  | rParen => cases mode <;> exact paired_single (by decide) _ _
  | operator kind spelling =>
      cases mode <;> exact paired_single (Chunk.not_mem_operator h (by decide)) _ _

/-- **In front of a chain operator the quotes outside of names come in pairs.** -/
theorem even_pieces (mode : Mode) {t : Text} (hquote : '\'' ∉ t) (hcaret : '^' ∉ t)
    {pre post : List Lexeme} {x : Lexeme} (h : pieces mode t = pre ++ x :: post)
    (hx : x.kind.isChain = true) : Even ((unnamed pre).count '"') := by
  fun_induction pieces mode t generalizing pre with
  | case1 mode t hnone => simp at h
  | case2 mode t chunk rest hnext s ih =>
      have hpaired : s.Paired := paired_step mode hnext hquote hcaret
      have hlater : ∀ more, pieces s.mode s.rest = more ++ x :: post →
          Even ((unnamed (s.out ++ more)).count '"') := by
        intro more hmore
        -- The operator comes later, so the text has not ended with this step.
        have hleft : s.rest ≠ [] := by
          intro hnil
          simp [hnil] at hmore
        rw [unnamed_append, List.count_append]
        exact (hpaired.resolve_left hleft).add
          (ih (not_mem_rest hnext mode hquote) (not_mem_rest hnext mode hcaret) hmore)
      obtain ⟨more, rfl, hmore⟩ | ⟨more, hout, hmore⟩ := List.append_eq_append_iff.mp h
      · exact hlater more hmore
      · cases more with
        | nil => simpa [hout] using hlater [] hmore.symm
        | cons y more =>
            obtain ⟨rfl, -⟩ := List.cons.inj hmore
            have hsingle : s.out = [x] := (eq_operator_of_isChain (by simp [s, hout]) hx).2
            rw [hsingle] at hout
            obtain ⟨rfl, -⟩ | ⟨_, _, habs⟩ := List.cons_eq_append_iff.mp hout
            · exact ⟨0, rfl⟩
            · simp at habs

end Lexer

namespace Token

open Lexeme

theorem isPieced_of_isChain {k : Kind} (h : k.isChain = true) : isPieced k = false := by
  cases k <;> simp_all [Kind.isChain, isPieced]

/-- The quotes of a list of tokens are those in names and those outside of names. -/
theorem count_stringify (ts : List Token) (c : Char) :
    (stringify ts).count c =
      (unnamed (ts.map lexeme)).count c + (stringify (ts.filter (·.is .setName))).count c := by
  induction ts with
  | nil => rfl
  | cons u ts ih =>
      rw [List.map_cons, unnamed_cons, stringify_cons, List.count_append, List.count_append, ih]
      by_cases hkind : u.kind = .setName
      · simp [unnamed, lexeme, is, hkind]
        omega
      · simp [unnamed, lexeme, is, hkind]
        omega

/-- **In front of a chain operator the count of the quotes is odd only because of names**: where
nothing but a double quote quotes, an odd number of double quotes stands in front of the operator
if and only if an odd number of them stands there in the names of assignments. -/
theorem odd_count_quotes_iff_names {t : Text} (hquote : '\'' ∉ t) (hcaret : '^' ∉ t)
    {before after : List Token} {operator : Token}
    (h : tokenize t = before ++ operator :: after) (hchain : operator.kind.isChain = true) :
    stringify before ++ operator.text <+: t ∧
      (Odd ((stringify before).count '"') ↔
        Odd ((stringify (before.filter (·.is .setName))).count '"')) := by
  refine ⟨⟨stringify after, ?_⟩, ?_⟩
  · rw [← stringify_tokenize t, h, stringify_append, stringify_cons, List.append_assoc]
  · have hlexemes : Lexer.lexemes t = before.map lexeme ++ operator.lexeme :: after.map lexeme := by
      rw [← map_lexeme_tokenize, h, List.map_append, List.map_cons]
    obtain ⟨pre, post, hpieces, hpre⟩ := exists_of_join (isPieced_of_isChain hchain) hlexemes
    have heven : Even ((unnamed (before.map lexeme)).count '"') := by
      rw [← hpre, unnamed_join]
      exact Lexer.even_pieces .command hquote hcaret hpieces hchain
    rw [count_stringify, Nat.odd_add', iff_true_right heven]

theorem odd_count_quotes_iff_names_echo :
    stringify ((tokenize "echo \"a&b\"&c".toList).take 5) ++ "&".toList <+:
        "echo \"a&b\"&c".toList ∧
      (Odd ((stringify ((tokenize "echo \"a&b\"&c".toList).take 5)).count '"') ↔
        Odd ((stringify (((tokenize "echo \"a&b\"&c".toList).take 5).filter
          (·.is .setName))).count '"')) :=
  have h : tokenize "echo \"a&b\"&c".toList =
      (tokenize "echo \"a&b\"&c".toList).take 5 ++ ⟨.condAlways, "&".toList, 1, 10, 11⟩ ::
        (tokenize "echo \"a&b\"&c".toList).drop 6 := by decide +kernel
  odd_count_quotes_iff_names (by decide) (by decide) h rfl

/-- A quote in a name does not quote what follows it. -/
theorem odd_count_quotes_of_name :
    ∃ before after : List Token, ∃ operator : Token,
      tokenize "set a\"b&c\"=d".toList = before ++ operator :: after ∧
        operator.kind.isChain = true ∧ Odd ((stringify before).count '"') :=
  ⟨(tokenize "set a\"b&c\"=d".toList).take 3, (tokenize "set a\"b&c\"=d".toList).drop 4,
    ⟨.condAlways, "&".toList, 1, 7, 8⟩, by decide +kernel, rfl, by decide +kernel⟩

end Token

end BatchTrace
