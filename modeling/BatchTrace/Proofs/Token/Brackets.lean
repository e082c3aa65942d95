/-
Escapes and strings in the tokens of a text.

An escape is a caret and one character, a string runs from its opening quote to its closing
one.  Whoever goes along the tokens of a text knows at every point whether a caret or a quote
is still waiting for what belongs to it; there are six such places, and every kind of token is
allowed in some of them only.  `Passes` says which, and `Walk` goes along a list.

Every step of the reader leads from outside all strings back there.  Only where the text ends it
may stop behind a caret or within a string in double quotes, for a single quote opens a string
only if another one closes it.  Joining the pieces of a quoted run keeps to the walk.  What
stands in front of a token and behind it is then read off the place where the walk passes it.
-/
import BatchTrace.Proofs.Token.Calm

namespace BatchTrace

/-- Kinds of tokens that belong to an escape or to a string. -/
def Kind.isBracketed : Kind → Bool
  | escape | escapedLiteral | stringDquoteBegin | stringDquoteChar | stringDquoteEnd
  | stringSquoteBegin | stringSquoteChar | stringSquoteEnd => true
  | _ => false

namespace Bracketing

open Lexeme

/-- Where one can be between two tokens. -/
inductive Place where
  /-- Outside of all strings or, with `single`, between single quotes. -/
  | text (single : Bool)
  /-- There, behind a caret. -/
  | caret (single : Bool)
  /-- Behind a double quote that opens a string. -/
  | opened
  /-- Behind what the string holds. -/
  | filled

/-- A text may end anywhere but between single quotes. -/
def Place.mayEnd : Place → Bool
  | text single | caret single => !single
  | opened | filled => true

/-- Going from one place past a lexeme to another. -/
inductive Passes : Place → Lexeme → Place → Prop
  | other {k : Kind} (t : Text) (h : k.isBracketed = false) :
      Passes (.text false) ⟨k, t⟩ (.text false)
  | caret (single : Bool) : Passes (.text single) ⟨.escape, ['^']⟩ (.caret single)
  | escaped (single : Bool) (c : Char) :
      Passes (.caret single) ⟨.escapedLiteral, [c]⟩ (.text single)
  | dquoteBegin (t : Text) : Passes (.text false) ⟨.stringDquoteBegin, t⟩ .opened
  | dquoteChar {t : Text} (h : '"' ∉ t) : Passes .opened ⟨.stringDquoteChar, t⟩ .filled
  | dquoteEmpty (t : Text) : Passes .opened ⟨.stringDquoteEnd, t⟩ (.text false)
  | dquoteEnd (t : Text) : Passes .filled ⟨.stringDquoteEnd, t⟩ (.text false)
  | squoteBegin (t : Text) : Passes (.text false) ⟨.stringSquoteBegin, t⟩ (.text true)
  | squoteChar {t : Text} (hquote : '\'' ∉ t) (hcaret : '^' ∉ t) :
      Passes (.text true) ⟨.stringSquoteChar, t⟩ (.text true)
  | squoteEnd (t : Text) : Passes (.text true) ⟨.stringSquoteEnd, t⟩ (.text false)

/-- Going past lexemes one after the other. -/
inductive Walk : Place → List Lexeme → Place → Prop
  | nil (p : Place) : Walk p [] p
  | cons {p q r : Place} {x : Lexeme} {xs : List Lexeme} (h : Passes p x q) (hs : Walk q xs r) :
      Walk p (x :: xs) r

namespace Walk

variable {p q r : Place} {x : Lexeme} {xs ys : List Lexeme}

theorem single (h : Passes p x q) : Walk p [x] q :=
  .cons h (.nil q)

theorem append (h : Walk p xs q) (hs : Walk q ys r) : Walk p (xs ++ ys) r := by
  induction h with
  | nil => exact hs
  | cons hx _ ih => exact .cons hx (ih hs)

theorem exists_of_append (h : Walk p (xs ++ ys) r) : ∃ q, Walk p xs q ∧ Walk q ys r := by
  induction xs generalizing p with
  | nil => exact ⟨p, .nil p, h⟩
  | cons x xs ih =>
      cases h with
      | cons hx hs =>
          obtain ⟨q, hxs, hys⟩ := ih hs
          exact ⟨q, .cons hx hxs, hys⟩

theorem of_others (h : ∀ x ∈ xs, x.kind.isBracketed = false) :
    Walk (.text false) xs (.text false) := by
  induction xs with
  | nil => exact .nil _
  | cons x xs ih =>
      exact .cons (.other x.text (h x (by simp))) (ih fun y hy => h y (by simp [hy]))

end Walk

/-! ### Where a kind can be passed -/

namespace Passes

variable {p q : Place} {x : Lexeme}

theorem of_escape (h : Passes p x q) (hkind : x.kind = .escape) :
    x.text = ['^'] ∧ ∃ single, q = .caret single := by
  cases h <;> simp_all [Kind.isBracketed]

theorem of_escapedLiteral (h : Passes p x q) (hkind : x.kind = .escapedLiteral) :
    ∃ single, p = .caret single := by
  cases h <;> simp_all [Kind.isBracketed]

theorem of_dquoteBegin (h : Passes p x q) (hkind : x.kind = .stringDquoteBegin) : q = .opened := by
  cases h <;> simp_all [Kind.isBracketed]

theorem of_dquoteChar (h : Passes p x q) (hkind : x.kind = .stringDquoteChar) : p = .opened := by
  cases h <;> simp_all [Kind.isBracketed]

theorem of_dquoteEnd (h : Passes p x q) (hkind : x.kind = .stringDquoteEnd) :
    p = .opened ∨ p = .filled := by
  cases h <;> simp_all [Kind.isBracketed]

theorem of_squoteBegin (h : Passes p x q) (hkind : x.kind = .stringSquoteBegin) :
    q = .text true := by
  cases h <;> simp_all [Kind.isBracketed]

theorem of_squotePiece (h : Passes p x q)
    (hkind : x.kind = .stringSquoteChar ∨ x.kind = .stringSquoteEnd) : p = .text true := by
  rcases hkind with hkind | hkind <;> cases h <;> simp_all [Kind.isBracketed]

end Passes

/-! ### Joining -/

/-- Two pieces of one lexeme are passed like the whole of it. -/
theorem Passes.join {p q r : Place} {x y : Lexeme} (hx : Passes p x q) (hy : Passes q y r)
    (hpieced : isPieced x.kind = true) (hkind : x.kind = y.kind) :
    Passes p ⟨x.kind, x.text ++ y.text⟩ r := by
  cases hx with
  | other t hother =>
      cases hy with
      | other t' => exact .other (t ++ t') hother
      | caret | dquoteBegin | squoteBegin => simp_all [isPieced]
  | squoteChar hquote hcaret =>
      cases hy with
      | squoteChar hquote' hcaret' =>
          exact .squoteChar (by simp [hquote, hquote']) (by simp [hcaret, hcaret'])
      | caret | squoteEnd => simp at hkind
  | _ => simp [isPieced] at hpieced

theorem Walk.join {p q : Place} {xs : List Lexeme} (h : Walk p xs q) : Walk p (join xs) q := by
  induction h with
  | nil p => exact .nil p
  | cons hx _ ih =>
      rw [Lexeme.join]
      split
      · rename_i hnil
        rw [hnil] at ih
        exact .cons hx ih
      · rename_i y joined hcons
        rw [hcons] at ih
        split
        · rename_i hsame
          obtain ⟨hpieced, hkind⟩ := Bool.and_eq_true_iff.mp hsame
          cases ih with
          | cons hy hs => exact .cons (hx.join hy hpieced (by simpa using hkind)) hs
        · exact .cons hx ih

end Bracketing

/-! ### The reader -/

theorem Chunk.eq_nil_of_caret {t rest : Text} (h : next? t = some (caret, rest)) : rest = [] := by
  have htext : '^' :: rest = t := text_append_of_next? h
  cases rest with
  | nil => rfl
  | cons c rest =>
      rw [← htext] at h
      simp [show next? ('^' :: c :: rest) = some (escape c, rest) from rfl] at h

theorem Kind.isBracketed_of_operator {k : Kind} (h : (k.isChain || k.isRedirection) = true) :
    k.isBracketed = false := by
  revert h
  cases k <;> decide

namespace Lexer

open Lexeme Bracketing

/-- The step comes back to where no string is open, unless the text ends with it. -/
def Step.Returns (s : Step) : Prop :=
  ∃ p, Walk (.text false) s.out p ∧ p.mayEnd = true ∧ (p = .text false ∨ s.rest = [])

theorem returns_of_walk {s : Step} (h : Walk (.text false) s.out (.text false)) : s.Returns :=
  ⟨_, h, rfl, Or.inl rfl⟩

theorem returns_of_others {s : Step} (h : ∀ x ∈ s.out, x.kind.isBracketed = false) : s.Returns :=
  returns_of_walk (.of_others h)

theorem returns_single {k : Kind} (h : k.isBracketed = false) (t : Text) (mode : Mode)
    (rest : Text) : Step.Returns ⟨[⟨k, t⟩], mode, rest⟩ :=
  returns_of_walk (.single (.other t h))

theorem walk_escaped (single : Bool) (c : Char) :
    Walk (.text single) (escaped c) (.text single) :=
  .cons (.caret single) (.single (.escaped single c))

theorem returns_escaped (c : Char) (mode : Mode) (rest : Text) :
    Step.Returns ⟨escaped c, mode, rest⟩ :=
  returns_of_walk (walk_escaped false c)

/-- A caret stands alone only at the end of the text. -/
theorem returns_caret (mode : Mode) : Step.Returns ⟨[⟨.escape, ['^']⟩], mode, []⟩ :=
  ⟨.caret false, .single (.caret false), rfl, Or.inr rfl⟩

/-- What a string in double quotes holds is one lexeme or none. -/
theorem walk_content {body : Text} (h : '"' ∉ body) :
    ∃ p, Walk .opened (ofText .stringDquoteChar body) p ∧ (p = .opened ∨ p = .filled) := by
  cases body with
  | nil => exact ⟨.opened, .nil _, Or.inl rfl⟩
  | cons c body => exact ⟨.filled, .single (.dquoteChar h), Or.inr rfl⟩

theorem returns_string (mode : Mode) (rest : Text) :
    Step.Returns ⟨⟨.stringDquoteBegin, ['"']⟩ :: (doubleQuoted rest).1, mode,
      (doubleQuoted rest).2⟩ := by
  rw [doubleQuoted_eq]
  by_cases h : '"' ∈ rest
  · obtain ⟨body, after, rfl, hbody⟩ := List.eq_append_cons_of_mem h
    obtain ⟨p, hcontent, hp⟩ := walk_content hbody
    have hclosing : Passes p ⟨.stringDquoteEnd, ['"']⟩ (.text false) := by
      rcases hp with rfl | rfl
      · exact .dquoteEmpty _
      · exact .dquoteEnd _
    rw [upToQuote_closed hbody]
    exact returns_of_walk (.cons (.dquoteBegin _) (hcontent.append (.single hclosing)))
  · obtain ⟨p, hcontent, hp⟩ := walk_content h
    rw [upToQuote_open h]
    exact ⟨p, .cons (.dquoteBegin _) hcontent, by rcases hp with rfl | rfl <;> rfl, Or.inr rfl⟩

theorem SingleQuoted.walk {t after : Text} {out : List Lexeme} (h : SingleQuoted t out after) :
    Walk (.text true) out (.text false) := by
  induction h with
  | close => exact .single (.squoteEnd _)
  | escape c _ ih => exact (walk_escaped true c).append ih
  | char hquote hcaret _ ih =>
      exact .cons (.squoteChar (by simpa using hquote.symm) (by simpa using hcaret.symm)) ih

theorem returns_command {t rest : Text} {chunk : Chunk} (h : Chunk.next? t = some (chunk, rest)) :
    (command chunk rest).Returns := by
  have hformed := Chunk.wellFormed_of_next? h
  cases chunk with
  | escape c => exact returns_escaped c .command rest
  | caret =>
      rw [Chunk.eq_nil_of_caret h]
      exact returns_caret .command
  | doubleQuote => exact returns_string .command rest
  | singleQuote =>
      cases hread : singleQuoted? rest with
      | some parts =>
          rw [command_singleQuote_some hread]
          exact returns_of_walk (.cons (.squoteBegin _) (singleQuoted_of_some hread).walk)
      | none =>
          rw [command_singleQuote_none hread]
          exact returns_single rfl _ _ _
  | delimiter run =>
      have hkind := forall_kind_gap (p := fun k => !k.isBracketed) (by decide) run
      exact returns_single (by simpa using hkind) run _ rest
  | word run =>
      have hkind := Chunk.forall_kind_word (p := fun k => !k.isBracketed) (by decide) run
      exact returns_single (by simpa using hkind) run _ rest
  | lParen => exact returns_single rfl _ _ _
  | rParen => exact returns_single rfl _ _ _
  | operator kind spelling =>
      exact returns_single (Kind.isBracketed_of_operator hformed.1) spelling _ rest

theorem returns_assign {before : Kind} (hbefore : before.isBracketed = false) (stay : Mode)
    (run rest : Text) : (assign before stay run rest).Returns :=
  returns_of_others
    (forall_kind_assign (p := (·.isBracketed = false)) hbefore rfl rfl stay run rest)

/-- **Every step keeps escapes and strings whole**, whatever the mode. -/
theorem returns_step (mode : Mode) {t rest : Text} {chunk : Chunk}
    (h : Chunk.next? t = some (chunk, rest)) : (step mode chunk rest).Returns := by
  have hcommand := returns_command h
  cases mode with
  | command => exact hcommand
  | lead =>
      cases chunk with
      | delimiter run => exact returns_assign rfl .lead run rest
      | doubleQuote =>
          exact returns_of_others (List.forall_mem_cons.mpr
            ⟨rfl, forall_kind_quotedSet (p := (·.isBracketed = false)) rfl rfl rfl rfl rest⟩)
      | escape c => exact returns_escaped c .name rest
      | singleQuote => exact returns_single rfl _ _ _
      | word run => exact returns_single rfl _ _ _
      | _ => exact hcommand
  | name =>
      cases chunk with
      | delimiter run => exact returns_assign rfl .name run rest
      | escape c => exact returns_escaped c .name rest
      | caret => exact hcommand
      | operator kind spelling => exact hcommand
      | _ => exact returns_single rfl _ _ _
  | value =>
      cases chunk with
      | escape c => exact returns_escaped c .value rest
      | doubleQuote => exact returns_string .value rest
      | caret => exact hcommand
      | operator kind spelling => exact hcommand
      | _ => exact returns_single rfl _ _ _

/-- A text is read from outside all strings to where it may end. -/
theorem exists_walk_pieces (mode : Mode) (t : Text) :
    ∃ p, Walk (.text false) (pieces mode t) p ∧ p.mayEnd = true := by
  fun_induction pieces mode t with
  | case1 mode t hnone => exact ⟨_, .nil _, rfl⟩
  | case2 mode t chunk rest hnext s ih =>
      obtain ⟨p, hstep, hend, rfl | hrest⟩ := returns_step mode hnext
      · obtain ⟨q, hlater, hq⟩ := ih
        exact ⟨q, hstep.append hlater, hq⟩
      · have hrest : s.rest = [] := hrest
        exact ⟨p, by simpa [hrest] using hstep, hend⟩

theorem exists_walk_lexemes (t : Text) :
    ∃ p, Walk (.text false) (lexemes t) p ∧ p.mayEnd = true := by
  obtain ⟨p, hwalk, hend⟩ := exists_walk_pieces .command t
  exact ⟨p, hwalk.join, hend⟩

end Lexer

/-! ### In front of a token and behind it -/

namespace Token

open Bracketing

/-- What a string in double quotes may hold. -/
def DquoteBody (ts : List Token) : Prop :=
  ts.length ≤ 1 ∧ ∀ t ∈ ts, t.kind = .stringDquoteChar ∧ '"' ∉ t.text

/-- What a string in single quotes may hold. -/
inductive SquoteBody : List Token → Prop
  | nil : SquoteBody []
  | char {t : Token} {ts : List Token} (hkind : t.kind = .stringSquoteChar)
      (htext : '\'' ∉ t.text ∧ '^' ∉ t.text) (hs : SquoteBody ts) : SquoteBody (t :: ts)
  | escape {t u : Token} {ts : List Token} (hcaret : t.kind = .escape ∧ t.text = ['^'])
      (hescaped : u.kind = .escapedLiteral ∧ u.text.length = 1) (hs : SquoteBody ts) :
      SquoteBody (t :: u :: ts)

theorem SquoteBody.append {ts us : List Token} (h : SquoteBody ts) (hs : SquoteBody us) :
    SquoteBody (ts ++ us) := by
  induction h with
  | nil => exact hs
  | char hkind htext _ ih => exact .char hkind htext ih
  | escape hcaret hescaped _ ih => exact .escape hcaret hescaped ih

/-- The tokens end within a string in single quotes. -/
def OpensSquote (before : List Token) : Prop :=
  ∃ front opening body, before = front ++ opening :: body ∧
    opening.kind = .stringSquoteBegin ∧ SquoteBody body

/-- The tokens go on with the rest of a string in single quotes. -/
def ClosesSquote (after : List Token) : Prop :=
  ∃ body closing rest, after = body ++ closing :: rest ∧
    SquoteBody body ∧ closing.kind = .stringSquoteEnd

/-- The token `t` has before it and after it what it needs as a part of an escape or a string. -/
structure BracketedAt (before : List Token) (t : Token) (after : List Token) : Prop where
  /-- A caret is followed by one escaped character, unless it is the last token. -/
  escape : t.kind = .escape →
    t.text = ['^'] ∧ ∀ u ∈ after.head?, u.kind = .escapedLiteral ∧ u.text.length = 1
  /-- An escaped character follows a caret. -/
  escapedLiteral : t.kind = .escapedLiteral → ∃ u ∈ before.getLast?, u.kind = .escape
  /-- A string in double quotes has at most one token in it and is closed, or the tokens end. -/
  dquoteBegin : t.kind = .stringDquoteBegin → ∃ body rest, after = body ++ rest ∧
    DquoteBody body ∧ ∀ u ∈ rest.head?, u.kind = .stringDquoteEnd
  /-- What it holds follows the opening quote. -/
  dquoteChar : t.kind = .stringDquoteChar → ∃ u ∈ before.getLast?, u.kind = .stringDquoteBegin
  /-- The closing quote follows the opening one and what stands between them. -/
  dquoteEnd : t.kind = .stringDquoteEnd → ∃ front opening body, before = front ++ opening :: body ∧
    opening.kind = .stringDquoteBegin ∧ DquoteBody body
  /-- A string in single quotes is closed. -/
  squoteBegin : t.kind = .stringSquoteBegin → ClosesSquote after
  /-- What it holds and the closing quote stand in a string that has been opened. -/
  squotePiece : t.kind = .stringSquoteChar ∨ t.kind = .stringSquoteEnd → OpensSquote before

/-- Every token of the list stands where it belongs. -/
def Bracketed (ts : List Token) : Prop :=
  ∀ before t after, ts = before ++ t :: after → BracketedAt before t after

/-- What the tokens are that lead to a place. -/
def Behind (before : List Token) : Place → Prop
  | .text single => single = true → OpensSquote before
  | .caret single => ∃ front u, before = front ++ [u] ∧ (u.kind = .escape ∧ u.text = ['^']) ∧
      (single = true → OpensSquote front)
  | .opened => ∃ front u, before = front ++ [u] ∧ u.kind = .stringDquoteBegin
  | .filled => ∃ front u v, before = front ++ [u, v] ∧ u.kind = .stringDquoteBegin ∧
      v.kind = .stringDquoteChar ∧ '"' ∉ v.text

/-- What the tokens are that can follow at a place. -/
def Ahead (after : List Token) : Place → Prop
  | .text single => single = true → ClosesSquote after
  | .caret single => (∀ u ∈ after.head?, u.kind = .escapedLiteral ∧ u.text.length = 1) ∧
      (single = true → ClosesSquote after.tail)
  | .opened => ∃ body rest, after = body ++ rest ∧ DquoteBody body ∧
      ∀ u ∈ rest.head?, u.kind = .stringDquoteEnd
  | .filled => ∀ u ∈ after.head?, u.kind = .stringDquoteEnd

theorem OpensSquote.append {before body : List Token} (h : OpensSquote before)
    (hbody : SquoteBody body) : OpensSquote (before ++ body) := by
  obtain ⟨front, opening, inner, rfl, hkind, hinner⟩ := h
  exact ⟨front, opening, inner ++ body, by simp, hkind, hinner.append hbody⟩

theorem ClosesSquote.append {body after : List Token} (h : ClosesSquote after)
    (hbody : SquoteBody body) : ClosesSquote (body ++ after) := by
  obtain ⟨inner, closing, rest, rfl, hinner, hkind⟩ := h
  exact ⟨body ++ inner, closing, rest, by simp, hbody.append hinner, hkind⟩

section

variable {before after : List Token} {t : Token} {p q : Place}

/-- One token further on. -/
theorem Behind.step (hb : Behind before p) (hx : Passes p t.lexeme q) :
    Behind (before ++ [t]) q := by
  obtain ⟨k, text, position⟩ := t
  change Passes p ⟨k, text⟩ q at hx
  cases hx with
  | other | dquoteEmpty | dquoteEnd | squoteEnd => exact fun h => absurd h (by simp)
  | caret single => exact ⟨before, _, rfl, ⟨rfl, rfl⟩, hb⟩
  | escaped single c =>
      obtain ⟨front, u, rfl, hcaret, hopens⟩ := hb
      intro h
      rw [List.append_assoc]
      exact (hopens h).append (.escape hcaret ⟨rfl, rfl⟩ .nil)
  | dquoteBegin => exact ⟨before, _, rfl, rfl⟩
  | dquoteChar h =>
      obtain ⟨front, u, rfl, hkind⟩ := hb
      exact ⟨front, u, _, List.append_assoc .., hkind, rfl, h⟩
  | squoteBegin => exact fun _ => ⟨before, _, [], rfl, rfl, .nil⟩
  | squoteChar hquote hcaret => exact fun h => (hb h).append (.char rfl ⟨hquote, hcaret⟩ .nil)

theorem ahead_nil (h : p.mayEnd = true) : Ahead [] p := by
  cases p with
  | text single => exact fun hsingle => by simp [Place.mayEnd, hsingle] at h
  | caret single => exact ⟨by simp, fun hsingle => by simp [Place.mayEnd, hsingle] at h⟩
  | opened => exact ⟨[], [], rfl, ⟨by simp, by simp⟩, by simp⟩
  | filled => simp [Ahead]

/-- One token further back. -/
theorem Ahead.step (hx : Passes p t.lexeme q) (ha : Ahead after q) : Ahead (t :: after) p := by
  obtain ⟨k, text, position⟩ := t
  change Passes p ⟨k, text⟩ q at hx
  cases hx with
  | other | dquoteBegin | squoteBegin => exact fun h => absurd h (by simp)
  | caret single =>
      intro h
      obtain ⟨hnext, hcloses⟩ := ha
      cases after with
      | nil =>
          obtain ⟨body, closing, rest, hnil, -⟩ := hcloses h
          simp at hnil
      | cons u rest => exact (hcloses h).append (.escape ⟨rfl, rfl⟩ (hnext u rfl) .nil)
  | escaped single c => exact ⟨by simp, ha⟩
  | dquoteChar h =>
      exact ⟨[_], after, rfl, ⟨by simp, by simpa using h⟩, ha⟩
  | dquoteEmpty => exact ⟨[], _, rfl, ⟨by simp, by simp⟩, by simp⟩
  | dquoteEnd => simp [Ahead]
  | squoteChar hquote hcaret => exact fun h => (ha h).append (.char rfl ⟨hquote, hcaret⟩ .nil)
  | squoteEnd => exact fun _ => ⟨[], _, after, rfl, .nil, rfl⟩

end

theorem behind_of_walk {ts : List Token} {p q : Place} {front : List Token} (hb : Behind front p)
    (h : Walk p (ts.map lexeme) q) : Behind (front ++ ts) q := by
  induction ts generalizing p front with
  | nil =>
      cases h
      simpa using hb
  | cons t ts ih =>
      rw [List.map_cons] at h
      cases h with
      | cons hx hs => simpa using ih (hb.step hx) hs

theorem ahead_of_walk {ts : List Token} {p q : Place} (hq : q.mayEnd = true)
    (h : Walk p (ts.map lexeme) q) : Ahead ts p := by
  induction ts generalizing p with
  | nil =>
      cases h
      exact ahead_nil hq
  | cons t ts ih =>
      rw [List.map_cons] at h
      cases h with
      | cons hx hs => exact .step hx (ih hs)

theorem bracketedAt_of_passes {before after : List Token} {t : Token} {p q : Place}
    (hb : Behind before p) (hx : Passes p t.lexeme q) (ha : Ahead after q) :
    BracketedAt before t after where
  escape hkind := by
    obtain ⟨htext, single, rfl⟩ := hx.of_escape hkind
    exact ⟨htext, ha.1⟩
  escapedLiteral hkind := by
    obtain ⟨single, rfl⟩ := hx.of_escapedLiteral hkind
    obtain ⟨front, u, rfl, hcaret, -⟩ := hb
    exact ⟨u, by simp, hcaret.1⟩
  dquoteBegin hkind := by
    obtain rfl := hx.of_dquoteBegin hkind
    exact ha
  dquoteChar hkind := by
    obtain rfl := hx.of_dquoteChar hkind
    obtain ⟨front, u, rfl, hopening⟩ := hb
    exact ⟨u, by simp, hopening⟩
  dquoteEnd hkind := by
    obtain rfl | rfl := hx.of_dquoteEnd hkind
    · obtain ⟨front, u, rfl, hopening⟩ := hb
      exact ⟨front, u, [], rfl, hopening, by simp, by simp⟩
    · obtain ⟨front, u, v, rfl, hopening, hcontent⟩ := hb
      exact ⟨front, u, [v], rfl, hopening, by simp, by simpa using hcontent⟩
  squoteBegin hkind := by
    obtain rfl := hx.of_squoteBegin hkind
    exact ha rfl
  squotePiece hkind := by
    obtain rfl := hx.of_squotePiece hkind
    exact hb rfl

/--
**Escapes and strings are well bracketed.**  Of the tokens of a text every caret has the
character that it escapes behind it, and every quote that opens a string has what the string
holds and the closing quote behind it.  Only the end of the text can cut off an escape or a
string in double quotes.  The pieces of escapes and strings stand nowhere else.
-/
theorem bracketed_tokenize (s : Text) : Bracketed (tokenize s) := by
  intro before t after hsplit
  obtain ⟨q, hwalk, hend⟩ := Lexer.exists_walk_lexemes s
  rw [← map_lexeme_tokenize, hsplit, List.map_append, List.map_cons] at hwalk
  obtain ⟨p, hbefore, hrest⟩ := hwalk.exists_of_append
  cases hrest with
  | cons hx hafter =>
      have hstart : Behind [] (.text false) := fun h => absurd h (by simp)
      exact bracketedAt_of_passes (behind_of_walk hstart hbefore) hx (ahead_of_walk hend hafter)

end Token

end BatchTrace
