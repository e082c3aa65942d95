/-
Taking the carets out.

A caret makes the character behind it an ordinary one, and dropping the carets leaves what was
meant.  On the text itself that is a rule that goes from left to right, `Text.unescape`, and knows
nothing of commands, assignments and quotes.  The reader meets carets in many places: with the
character behind them they are chunks of their own, but a string in single quotes is not read in
chunks, and whether a single quote opens a string depends on the carets behind it.

All of them agree with the rule as long as there are no double quotes, between which a caret is a
character like any other.  Each step of the reader takes carets in pairs with the characters behind
them, so what it leaves to be read is what the rule has still to look at.
-/
import BatchTrace.Proofs.Token.SetRegion
import BatchTrace.Proofs.Token.Brackets

namespace BatchTrace

/-- The text without its carets, each of which keeps the character behind it from being one. -/
def Text.unescape : Text → Text
  | [] => []
  | ['^'] => []
  | '^' :: c :: rest => c :: unescape rest
  | c :: rest => c :: unescape rest

namespace Text

theorem unescape_cons {c : Char} (hc : c ≠ '^') (t : Text) :
    unescape (c :: t) = c :: unescape t := by
  cases t with
  | nil => simp [unescape, hc]
  | cons d t => simp [unescape, hc]

/-- Where there is no caret nothing changes. -/
theorem unescape_append {s : Text} (hs : '^' ∉ s) (t : Text) :
    unescape (s ++ t) = s ++ unescape t := by
  induction s with
  | nil => rfl
  | cons c s ih =>
      have hc : c ≠ '^' := fun heq => hs (by simp [heq])
      rw [List.cons_append, unescape_cons hc, ih fun hmem => hs (by simp [hmem]), List.cons_append]

end Text

namespace Lexeme

/-- What lexemes spell without the carets. -/
def bare (xs : List Lexeme) : Text :=
  spell (xs.filter (·.kind ≠ .escape))

@[simp] theorem bare_nil : bare [] = [] := rfl

@[simp] theorem bare_append (xs ys : List Lexeme) : bare (xs ++ ys) = bare xs ++ bare ys := by
  simp [bare]

@[simp] theorem bare_escaped (c : Char) : bare (escaped c) = [c] := rfl

theorem bare_cons {x : Lexeme} (hx : x.kind ≠ .escape) (xs : List Lexeme) :
    bare (x :: xs) = x.text ++ bare xs := by
  simp [bare, hx]

theorem bare_eq_spell {xs : List Lexeme} (h : ∀ x ∈ xs, x.kind ≠ .escape) : bare xs = spell xs := by
  rw [bare, List.filter_eq_self.mpr (by simpa using h)]

theorem bare_join (xs : List Lexeme) : bare (join xs) = bare xs :=
  spell_filter_join (p := (· ≠ .escape)) xs

end Lexeme

/-! ### The reader -/

namespace Lexer

open Lexeme Text

/-- The step takes the carets out of what it reads of `t`. -/
def Step.Unescapes (s : Step) (t : Text) : Prop :=
  unescape t = bare s.out ++ unescape s.rest

theorem unescapes_of_plain {s : Step} {t : Text} (htext : spell s.out ++ s.rest = t)
    (hkinds : ∀ x ∈ s.out, x.kind ≠ .escape) (hcaret : '^' ∉ spell s.out) : s.Unescapes t := by
  rw [Step.Unescapes, ← htext, unescape_append hcaret, bare_eq_spell hkinds]

theorem unescapes_single {k : Kind} {s : Text} (hk : k ≠ .escape) (hs : '^' ∉ s) (mode : Mode)
    (rest : Text) : Step.Unescapes ⟨[⟨k, s⟩], mode, rest⟩ (s ++ rest) :=
  unescapes_of_plain (by simp) (by simpa using hk) (by simpa using hs)

theorem unescapes_escaped (c : Char) (mode : Mode) (rest : Text) :
    Step.Unescapes ⟨escaped c, mode, rest⟩ ('^' :: c :: rest) := by
  simp [Step.Unescapes, unescape]

theorem unescapes_caret (mode : Mode) : Step.Unescapes ⟨[⟨.escape, ['^']⟩], mode, []⟩ ['^'] := by
  simp [Step.Unescapes, unescape, bare]

/-- Between single quotes carets are taken in pairs too. -/
theorem SingleQuoted.unescape_eq {t after : Text} {out : List Lexeme}
    (h : SingleQuoted t out after) : unescape t = bare out ++ unescape after := by
  induction h with
  | close rest => rw [unescape_cons (by decide), bare_cons (by simp)]; rfl
  | escape c _ ih =>
      rw [bare_append, bare_escaped, List.append_assoc, ← ih]
      rfl
  | char _ hcaret _ ih =>
      rw [unescape_cons hcaret, bare_cons (by simp), ih]
      rfl

theorem unescapes_singleQuote (rest : Text) :
    (command .singleQuote rest).Unescapes ('\'' :: rest) := by
  cases hread : singleQuoted? rest with
  | some parts =>
      rw [command_singleQuote_some hread, Step.Unescapes, unescape_cons (by decide),
        (singleQuoted_of_some hread).unescape_eq, bare_cons (by simp)]
      rfl
  | none =>
      rw [command_singleQuote_none hread]
      exact unescapes_single (by simp) (by simp) .command rest

theorem unescapes_assign {before : Kind} (hbefore : before ≠ .escape)
    (hknown : before ≠ .unrecognized) (stay : Mode) {run : Text} (hne : run ≠ [])
    (hcaret : '^' ∉ run) (rest : Text) :
    (assign before stay run rest).Unescapes (run ++ rest) := by
  obtain ⟨taken, htaken, heq⟩ := reads_assign hknown stay hne rest
  have hspell : spell (assign before stay run rest).out = run := by
    rw [rest_assign] at heq
    rw [htaken.spelled, List.append_cancel_right heq]
  refine unescapes_of_plain (by rw [hspell, rest_assign]) ?_ (by rwa [hspell])
  exact forall_kind_assign (p := (· ≠ .escape)) hbefore (by simp) (by simp) stay run rest

/-- **Every step takes its carets out as the rule does**, if there is no double quote. -/
theorem unescapes_step (mode : Mode) {t rest : Text} {chunk : Chunk}
    (h : Chunk.next? t = some (chunk, rest)) (hquote : '"' ∉ t) :
    (step mode chunk rest).Unescapes t := by
  have hformed := Chunk.wellFormed_of_next? h
  rw [← Chunk.text_append_of_next? h] at hquote ⊢
  cases chunk with
  | escape c => cases mode <;> exact unescapes_escaped c _ rest
  | caret =>
      rw [Chunk.eq_nil_of_caret h]
      cases mode <;> exact unescapes_caret _
  | doubleQuote => exact absurd (by simp [Chunk.text]) hquote
  | singleQuote =>
      cases mode with
      | command => exact unescapes_singleQuote rest
      | _ => exact unescapes_single (by simp) (by decide) _ rest
  | delimiter run =>
      have hcaret : '^' ∉ run := fun hmem => absurd (hformed.2 _ hmem) (by decide)
      cases mode with
      | command =>
          have hkind := forall_kind_gap (p := (· ≠ .escape)) (by decide) run
          exact unescapes_single (by simpa using hkind) hcaret _ rest
      | lead => exact unescapes_assign (by simp) (by simp) .lead hformed.1 hcaret rest
      | name => exact unescapes_assign (by simp) (by simp) .name hformed.1 hcaret rest
      | value => exact unescapes_single (by simp) hcaret _ rest
  | word run =>
      have hcaret : '^' ∉ run := fun hmem => absurd (hformed.2 _ hmem) (by decide)
      have hkind := Chunk.forall_kind_word (p := (· ≠ .escape)) (by decide) run
      cases mode with
      | command => exact unescapes_single (by simpa using hkind) hcaret _ rest
      | _ => exact unescapes_single (by simp) hcaret _ rest
  | lParen => cases mode <;> exact unescapes_single (by decide) (by decide) _ rest
  | rParen => cases mode <;> exact unescapes_single (by decide) (by decide) _ rest
  | operator kind spelling =>
      have hkind : kind ≠ .escape := by
        rintro rfl
        exact absurd hformed.1 (by decide)
      cases mode <;> exact unescapes_single hkind (Chunk.not_mem_operator h (by decide)) _ rest

theorem bare_pieces (mode : Mode) {t : Text} (hquote : '"' ∉ t) :
    bare (pieces mode t) = unescape t := by
  fun_induction pieces mode t with
  | case1 mode t hnone =>
      rw [Chunk.eq_nil_of_next? hnone]
      rfl
  | case2 mode t chunk rest hnext s ih =>
      have hrest : '"' ∉ s.rest := by
        intro hmem
        refine hquote ?_
        rw [← spell_append_rest hnext mode]
        exact List.mem_append_right _ hmem
      have hstep : s.Unescapes t := unescapes_step mode hnext hquote
      rw [bare_append, ih hrest, hstep]

end Lexer

namespace Token

open Lexeme

theorem stringify_applyEscapes (ts : List Token) :
    stringify (applyEscapes ts) = bare (ts.map lexeme) := by
  have htext : ∀ t : Token,
      (if t.kind = .escapedLiteral then t.withKind .literal else t).text = t.text := by
    intro t
    split <;> rfl
  rw [applyEscapes, stringify, List.flatMap_map, bare, List.filter_map, spell, List.flatMap_map]
  simp only [htext]
  rfl

/--
**Dropping carets is the rule of the text.**  In a text without double quotes every caret is
dropped with the character behind it kept, and a caret at the end of the text is dropped alone,
whether a command, an assignment or a string in single quotes is read there.
-/
theorem stringify_applyEscapes_tokenize (s : Text) (hquote : '"' ∉ s) :
    stringify (applyEscapes (tokenize s)) = s.unescape := by
  rw [stringify_applyEscapes, map_lexeme_tokenize, Lexer.lexemes, bare_join,
    Lexer.bare_pieces .command hquote]

/-- Doubled carets, carets before an equals sign, an operator and a closing quote, a single quote
that stays open because the only one behind it is escaped, and a caret at the end. -/
theorem stringify_applyEscapes_tokenize_mixed :
    '"' ∉ "set a^^=b^=&'c^'d' ^&'e^' ^".toList ∧
      stringify (applyEscapes (tokenize "set a^^=b^=&'c^'d' ^&'e^' ^".toList)) =
        "set a^=b=&'c'd' &'e' ".toList := by
  have hquote : '"' ∉ "set a^^=b^=&'c^'d' ^&'e^' ^".toList := by decide
  exact ⟨hquote, (stringify_applyEscapes_tokenize _ hquote).trans (by decide)⟩

end Token

end BatchTrace
