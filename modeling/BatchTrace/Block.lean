/-
Blocks: the commands of a line.

A line is cut at its chain operators.  Escaped and quoted operators are no chain
tokens, so they never cut.  A block may be wrapped in parentheses, which `peel`
takes off together with the separators around them, as long as they come in pairs.
-/
import BatchTrace.Text.Blank
import BatchTrace.Token.Lexer

namespace BatchTrace

namespace Block

/-- The blocks of a token list: the parts between chain operators that hold more than
separators. -/
def ofTokens (ts : List Token) : List (List Token) :=
  (ts.splitOnP (·.kind.isChain)).filter fun block => block.any (·.kind ≠ .delimiter)

/-- The commands of a text, cut at `&` and `&&` only, trimmed, without the empty ones. -/
def split (t : Text) : List Text :=
  let parts := (Token.tokenize t).splitOnP fun token =>
    token.kind = .condAlways || token.kind = .condSuccess
  (parts.map fun part => Text.trim (Token.stringify part)).filter fun command => command ≠ []

/-- Tokens without the separators at either end. -/
def trimDelimiters (ts : List Token) : List Token :=
  ((ts.dropWhile (·.kind = .delimiter)).reverse.dropWhile (·.kind = .delimiter)).reverse

/-- What stands inside the outermost parentheses, if a list of tokens starts with an opening and
ends with a closing one. -/
def inner? : List Token → Option (List Token)
  | [] => none
  | t :: rest =>
      match rest.getLast? with
      | none => none
      | some last =>
          if t.kind = .lParen ∧ last.kind = .rParen then some rest.dropLast else none

theorem length_trimDelimiters (ts : List Token) : (trimDelimiters ts).length ≤ ts.length := by
  unfold trimDelimiters
  rw [List.length_reverse]
  refine Nat.le_trans (List.dropWhile_suffix _).length_le ?_
  rw [List.length_reverse]
  exact (List.dropWhile_suffix _).length_le

theorem inner?_eq_some_iff {ts us : List Token} : inner? ts = some us ↔ ∃ opening closing,
    ts = opening :: (us ++ [closing]) ∧ opening.kind = .lParen ∧ closing.kind = .rParen := by
  cases ts with
  | nil => simp [inner?]
  | cons t rest =>
      rcases List.eq_nil_or_concat rest with rfl | ⟨inside, last, rfl⟩
      · simp [inner?]
      · have hinner : inner? (t :: (inside ++ [last])) =
            if t.kind = .lParen ∧ last.kind = .rParen then some inside else none := by
          simp [inner?]
        rw [List.concat_eq_append, hinner, Option.ite_none_right_eq_some]
        constructor
        · rintro ⟨hkinds, hinside⟩
          exact ⟨t, last, by rw [Option.some.inj hinside], hkinds⟩
        · rintro ⟨opening, closing, hts, hkinds⟩
          obtain ⟨rfl, hrest⟩ := List.cons.inj hts
          obtain ⟨rfl, hlast⟩ := List.append_inj' hrest rfl
          obtain rfl := List.singleton_inj.mp hlast
          exact ⟨hkinds, rfl⟩

theorem inner?_eq_none_of_head? {ts : List Token} (h : ∀ t ∈ ts.head?, t.kind ≠ .lParen) :
    inner? ts = none := by
  rw [Option.eq_none_iff_forall_ne_some]
  intro us hus
  obtain ⟨opening, closing, rfl, hopening, -⟩ := inner?_eq_some_iff.mp hus
  exact h opening rfl hopening

theorem length_lt_of_inner? {ts us : List Token} (h : inner? ts = some us) :
    us.length < ts.length := by
  obtain ⟨opening, closing, rfl, -, -⟩ := inner?_eq_some_iff.mp h
  rw [List.length_cons, List.length_append]
  omega

/-- Tokens without the grouping parentheses and separators around them. -/
def peel (ts : List Token) : List Token :=
  match _h : inner? (trimDelimiters ts) with
  | some us => peel us
  | none => trimDelimiters ts
termination_by ts.length
decreasing_by
  exact Nat.lt_of_lt_of_le (length_lt_of_inner? _h) (length_trimDelimiters ts)

end Block

end BatchTrace
