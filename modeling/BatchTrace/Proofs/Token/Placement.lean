/-
Where a token stands does not matter.

Every token carries its position, and every stage hands positions on, but no stage looks
at one: which tokens are dropped, fused or kept depends on their kinds and texts alone.
Two token lists are alike if they agree in kinds and texts.  Each stage turns alike lists
into alike ones, and the program and the switches that are read off alike lists are the
same.  A command thus means the same wherever it stands in a line.
-/
import BatchTrace.Proofs.Program.LetterCase
import BatchTrace.Proofs.Token.Spelling
import BatchTrace.Trace.Interpreter
import Mathlib.Data.List.Forall2

namespace BatchTrace

namespace Token

/-- Two tokens that differ at most in where they stand. -/
structure Alike (t u : Token) : Prop where
  kind : t.kind = u.kind
  text : t.text = u.text

/-- Two lists of tokens that are alike one by one. -/
abbrev AllAlike : List Token → List Token → Prop :=
  List.Forall₂ Alike

theorem Alike.refl (t : Token) : t.Alike t := ⟨rfl, rfl⟩

theorem AllAlike.refl (ts : List Token) : AllAlike ts ts :=
  List.forall₂_same.2 fun t _ => .refl t

/-- A token without its position. -/
def lexeme (t : Token) : Lexeme :=
  ⟨t.kind, t.text⟩

@[simp] theorem map_lexeme_place (start : Nat × Nat) (xs : List Lexeme) :
    (Lexeme.place start xs).map lexeme = xs := by
  induction xs generalizing start with
  | nil => rfl
  | cons x rest ih => exact congrArg (x :: ·) (ih _)

@[simp] theorem map_lexeme_tokenize (t : Text) : (tokenize t).map lexeme = Lexer.lexemes t :=
  map_lexeme_place _ _

@[simp] theorem spell_map_lexeme (ts : List Token) :
    Lexeme.spell (ts.map lexeme) = stringify ts := by
  rw [Lexeme.spell, List.flatMap_map]
  rfl

/-- Lexemes give alike tokens wherever they are placed. -/
theorem allAlike_place (start start' : Nat × Nat) (xs : List Lexeme) :
    AllAlike (Lexeme.place start xs) (Lexeme.place start' xs) := by
  induction xs generalizing start start' with
  | nil => exact .nil
  | cons x rest ih => exact .cons ⟨rfl, rfl⟩ (ih _ _)

theorem allAlike_of_map_lexeme {ts us : List Token} (h : ts.map lexeme = us.map lexeme) :
    AllAlike ts us := by
  induction ts generalizing us with
  | nil => rw [List.map_eq_nil_iff.mp h.symm]; exact .nil
  | cons t ts ih =>
    obtain ⟨u, rest, rfl, hu, hrest⟩ := List.map_eq_cons_iff.mp h.symm
    exact .cons ⟨(Lexeme.mk.inj hu).1.symm, (Lexeme.mk.inj hu).2.symm⟩ (ih hrest.symm)

namespace AllAlike

variable {ts us ts' us' : List Token}

theorem append (h : AllAlike ts us) (h' : AllAlike ts' us') :
    AllAlike (ts ++ ts') (us ++ us') :=
  List.rel_append h h'

theorem stringify_eq (h : AllAlike ts us) : stringify ts = stringify us := by
  induction h with
  | nil => rfl
  | cons hhead _ ih => rw [stringify_cons, stringify_cons, hhead.text, ih]

section

variable {p : Token → Bool} (hp : ∀ {t u : Token}, t.Alike u → p t = p u)
include hp

theorem takeWhile (h : AllAlike ts us) : AllAlike (ts.takeWhile p) (us.takeWhile p) := by
  induction h with
  | nil => exact .nil
  | cons hhead _ ih =>
    rw [List.takeWhile_cons, List.takeWhile_cons, hp hhead]
    split
    · exact .cons hhead ih
    · exact .nil

theorem dropWhile (h : AllAlike ts us) : AllAlike (ts.dropWhile p) (us.dropWhile p) := by
  induction h with
  | nil => exact .nil
  | cons hhead hrest ih =>
    rw [List.dropWhile_cons, List.dropWhile_cons, hp hhead]
    split
    · exact ih
    · exact .cons hhead hrest

theorem filter (h : AllAlike ts us) : AllAlike (ts.filter p) (us.filter p) :=
  List.rel_filter (fun _ _ ht => Eq.to_iff (congrArg (· = true) (hp ht))) h

theorem dropWhileEnd (h : AllAlike ts us) :
    AllAlike (ts.reverse.dropWhile p).reverse (us.reverse.dropWhile p).reverse :=
  List.rel_reverse (dropWhile hp (List.rel_reverse h))

theorem splitOnP (h : AllAlike ts us) : List.Forall₂ AllAlike (ts.splitOnP p) (us.splitOnP p) := by
  induction h with
  | nil => exact .cons .nil .nil
  | @cons t u ts us hhead _ ih =>
    rw [List.splitOnP_cons_eq_if_modifyHead, List.splitOnP_cons_eq_if_modifyHead, hp hhead]
    split
    · exact .cons .nil ih
    · generalize ts.splitOnP p = blocks, us.splitOnP p = blocks' at ih
      cases ih with
      | nil => exact .nil
      | cons hfirst hrest => exact .cons (.cons hhead hfirst) hrest

end

/-! ### Cleaning -/

theorem applyEscapes (h : AllAlike ts us) :
    AllAlike (Token.applyEscapes ts) (Token.applyEscapes us) := by
  refine List.rel_map ?_ (h.filter fun ht => by rw [ht.kind])
  intro t u ht
  dsimp only
  rw [ht.kind]
  split
  · exact ⟨rfl, ht.text⟩
  · exact ht

theorem stripEmptyFrom {kept kept' : List Token} (hkept : AllAlike kept kept')
    (h : AllAlike ts us) :
    AllAlike (Token.stripEmptyFrom kept ts) (Token.stripEmptyFrom kept' us) := by
  induction h generalizing kept kept' with
  | nil => exact List.rel_reverse hkept
  | @cons t u ts us hhead _ ih =>
    cases hkept with
    | nil => exact ih (.cons hhead .nil)
    | @cons last last' before before' hlast hbefore =>
      rw [Token.stripEmptyFrom, Token.stripEmptyFrom, hhead.kind, hlast.kind]
      split
      · exact ih hbefore
      · exact ih (.cons hhead (.cons hlast hbefore))

end AllAlike

theorem Alike.fuse {t u t' u' : Token} (h : t.Alike u) (h' : t'.Alike u') :
    (t.fuse t').Alike (u.fuse u') :=
  ⟨h.kind, congrArg₂ (· ++ ·) h.text h'.text⟩

namespace AllAlike

variable {ts us : List Token}

theorem fuseFrom {joins : Token → Token → Bool}
    (hjoins : ∀ {t u t' u' : Token}, t.Alike u → t'.Alike u' → joins t t' = joins u u')
    {t u : Token} (ht : t.Alike u) (h : AllAlike ts us) :
    AllAlike (Token.fuseFrom joins t ts) (Token.fuseFrom joins u us) := by
  induction h generalizing t u with
  | nil => exact .cons ht .nil
  | cons hnext _ ih =>
    rw [Token.fuseFrom, Token.fuseFrom, hjoins ht hnext]
    split
    · exact ih (ht.fuse hnext)
    · exact .cons ht (ih hnext)

theorem fuseRuns {joins : Token → Token → Bool}
    (hjoins : ∀ {t u t' u' : Token}, t.Alike u → t'.Alike u' → joins t t' = joins u u')
    (h : AllAlike ts us) : AllAlike (Token.fuseRuns joins ts) (Token.fuseRuns joins us) := by
  cases h with
  | nil => exact .nil
  | cons hhead hrest => exact fuseFrom hjoins hhead hrest

theorem mergeLiterals (h : AllAlike ts us) :
    AllAlike (Token.mergeLiterals ts) (Token.mergeLiterals us) :=
  h.fuseRuns fun ht ht' => by rw [ht.kind, ht'.kind]

end AllAlike

namespace Quoted

/-- Two strings that differ at most in where their parts stand. -/
structure Alike (q r : Quoted) : Prop where
  opening : q.opening.Alike r.opening
  content : Option.Rel Token.Alike q.content r.content
  closing : Option.Rel Token.Alike q.closing r.closing

namespace Alike

variable {q r : Quoted}

theorem absorb {t u : Token} (h : q.Alike r) (ht : t.Alike u) :
    (q.absorb t).Alike (r.absorb u) := by
  refine ⟨h.opening, ?_, h.closing⟩
  obtain ⟨opening, content, closing⟩ := q
  obtain ⟨opening', content', closing'⟩ := r
  cases h.content with
  | none => exact .some ⟨rfl, ht.text⟩
  | some hcontent => exact .some (hcontent.fuse ht)

theorem start {words words' : List Token} {t u : Token} (hwords : AllAlike words words')
    (ht : t.Alike u) : (Quoted.start words t).Alike (Quoted.start words' u) := by
  refine List.rel_foldl (fun _ _ hq _ _ hword => hq.absorb hword) ⟨?_, .none, .none⟩ hwords
  cases hwords with
  | nil => exact ht
  | cons _ _ => exact ⟨ht.kind, ht.text⟩

theorem tokens (h : q.Alike r) : AllAlike q.tokens r.tokens := by
  have hlist : ∀ {a b : Option Token}, Option.Rel Token.Alike a b →
      AllAlike a.toList b.toList := by
    intro a b hab
    cases hab with
    | none => exact .nil
    | some hab => exact .cons hab .nil
  exact .cons h.opening ((hlist h.content).append (hlist h.closing))

theorem extend (join : Bool) {ts us : List Token} (hts : AllAlike ts us) (h : q.Alike r) :
    AllAlike (q.extend join ts) (r.extend join us) := by
  induction hts generalizing q r with
  | nil => exact h.tokens
  | @cons t u ts us ht _ ih =>
    rw [Quoted.extend, Quoted.extend, ht.kind]
    split
    · split
      · exact ih ⟨h.opening, h.content, .none⟩
      · exact h.tokens.append (ih (start .nil ht))
    · exact ih ⟨h.opening, h.content, .some ht⟩
    · exact ih (h.absorb ht)

end Alike

end Quoted

namespace AllAlike

variable {ts us : List Token}

theorem widenRun (join : Bool) (h : AllAlike ts us) :
    AllAlike (Token.widenRun join ts) (Token.widenRun join us) := by
  have hopens : ∀ {t u : Token}, t.Alike u →
      decide (t.kind ≠ .stringDquoteBegin) = decide (u.kind ≠ .stringDquoteBegin) := by
    intro t u ht
    rw [ht.kind]
  have hbefore := (h.takeWhile hopens).filter (p := fun t => t.kind ≠ .stringDquoteEnd)
    fun ht => by rw [ht.kind]
  have hdrop := h.dropWhile hopens
  unfold Token.widenRun
  generalize ts.dropWhile _ = after, us.dropWhile _ = after' at hdrop
  cases hdrop with
  | nil => exact h
  | cons hq hrest => exact Quoted.Alike.extend join hrest (.start hbefore hq)

theorem isGlued {t u : Token} (h : t.Alike u) : t.isGlued = u.isGlued := by
  rw [Token.isGlued, Token.isGlued, h.kind]

theorem widen (join : Bool) (h : AllAlike ts us) :
    AllAlike (Token.widen join ts) (Token.widen join us) := by
  fun_induction Token.widen join ts generalizing us with
  | case1 =>
    cases h
    rw [Token.widen]
    exact .nil
  | case2 t rest ht ih =>
    obtain ⟨u, rest', hhead, hrest, rfl⟩ := List.forall₂_cons_left_iff.1 h
    rw [Token.widen, if_pos (isGlued hhead ▸ ht)]
    exact (widenRun join (.cons hhead (takeWhile isGlued hrest))).append
      (ih (dropWhile isGlued hrest))
  | case3 t rest ht ih =>
    obtain ⟨u, rest', hhead, hrest, rfl⟩ := List.forall₂_cons_left_iff.1 h
    rw [Token.widen, if_neg (isGlued hhead ▸ ht)]
    exact .cons hhead (ih hrest)

theorem isBlankDelimiter {t u : Token} (h : t.Alike u) :
    t.isBlankDelimiter = u.isBlankDelimiter := by
  rw [Token.isBlankDelimiter, Token.isBlankDelimiter, h.kind, h.text]

theorem stripBlanks (h : AllAlike ts us) :
    AllAlike (Token.stripBlanks ts) (Token.stripBlanks us) := by
  refine dropWhileEnd isBlankDelimiter (dropWhile isBlankDelimiter
    (List.rel_map (R := Alike) ?_ ?_))
  · intro t u ht
    rw [singleSpace, singleSpace, isBlankDelimiter ht]
    split
    · exact ⟨ht.kind, rfl⟩
    · exact ht
  · exact h.fuseRuns fun ht ht' => by rw [ht.kind, ht'.kind]

theorem stripCommas (h : AllAlike ts us) :
    AllAlike (Token.stripCommas ts) (Token.stripCommas us) := by
  refine stripBlanks (List.rel_map ?_ h)
  intro t u ht
  dsimp only
  rw [ht.kind]
  split
  · exact ⟨rfl, congrArg (Text.replaceChars _ _) ht.text⟩
  · exact ht

/-- Cleaning alike tokens. -/
theorem clean (options : Cleaning) (h : AllAlike ts us) :
    AllAlike (options.apply ts) (options.apply us) := by
  have hpass : ∀ (chosen : Bool) {pass : List Token → List Token},
      (∀ {ts us : List Token}, AllAlike ts us → AllAlike (pass ts) (pass us)) →
      ∀ {ts us : List Token}, AllAlike ts us →
        AllAlike (if chosen then pass ts else ts) (if chosen then pass us else us) := by
    intro chosen pass hpass ts us h
    cases chosen with
    | false => exact h
    | true => exact hpass h
  exact hpass _ stripCommas (hpass _ stripBlanks (hpass _ (widen options.joinStrings)
    (hpass _ mergeLiterals (hpass _ (stripEmptyFrom .nil) (hpass _ applyEscapes h)))))

/-! ### Blocks -/

theorem trimDelimiters (h : AllAlike ts us) :
    AllAlike (Block.trimDelimiters ts) (Block.trimDelimiters us) := by
  have hdelimiter : ∀ {t u : Token}, t.Alike u →
      decide (t.kind = .delimiter) = decide (u.kind = .delimiter) := by
    intro t u ht
    rw [ht.kind]
  exact dropWhileEnd hdelimiter (h.dropWhile hdelimiter)

theorem dropLast (h : AllAlike ts us) : AllAlike ts.dropLast us.dropLast := by
  rw [List.dropLast_eq_take, List.dropLast_eq_take, h.length_eq]
  exact List.forall₂_take _ h

theorem getLast? (h : AllAlike ts us) : Option.Rel Alike ts.getLast? us.getLast? := by
  have hreverse := List.rel_reverse h
  rw [List.getLast?_eq_head?_reverse, List.getLast?_eq_head?_reverse]
  generalize ts.reverse = ts', us.reverse = us' at hreverse
  cases hreverse with
  | nil => exact .none
  | cons hhead _ => exact .some hhead

theorem inner? (h : AllAlike ts us) :
    Option.Rel AllAlike (Block.inner? ts) (Block.inner? us) := by
  cases h with
  | nil => exact .none
  | @cons t u rest rest' ht hrest =>
    have hlast := getLast? hrest
    rw [Block.inner?, Block.inner?]
    generalize rest.getLast? = last, rest'.getLast? = last' at hlast
    cases hlast with
    | none => exact .none
    | some hlast =>
      dsimp only
      rw [ht.kind, hlast.kind]
      split
      · exact .some (dropLast hrest)
      · exact .none

theorem peel (h : AllAlike ts us) : AllAlike (Block.peel ts) (Block.peel us) := by
  fun_induction Block.peel ts generalizing us with
  | case1 ts ws hinner ih =>
    have hrel := h.trimDelimiters.inner?
    rw [hinner] at hrel
    rw [Block.peel_eq us]
    generalize Block.inner? (Block.trimDelimiters us) = inner at hrel
    cases hrel with
    | some hws => exact ih hws
  | case2 ts hinner =>
    have hrel := h.trimDelimiters.inner?
    rw [hinner] at hrel
    rw [Block.peel_eq us]
    generalize Block.inner? (Block.trimDelimiters us) = inner at hrel
    cases hrel with
    | none => exact h.trimDelimiters

/-- Alike tokens fall into alike blocks. -/
theorem blocks (h : AllAlike ts us) :
    List.Forall₂ AllAlike (Block.ofTokens ts) (Block.ofTokens us) := by
  refine List.rel_filter ?_ (h.splitOnP fun ht => by rw [ht.kind])
  intro block block' hblock
  refine Eq.to_iff (congrArg (· = true) ?_)
  induction hblock with
  | nil => rfl
  | cons ht _ ih => rw [List.any_cons, List.any_cons, ht.kind, ih]

/-! ### Programs and commands -/

theorem ofTokensFrom_eq (table : Switches) (h : AllAlike ts us) :
    CmdArguments.ofTokensFrom table ts = CmdArguments.ofTokensFrom table us := by
  induction h generalizing table with
  | nil => rfl
  | cons ht hrest ih =>
    simp only [CmdArguments.ofTokensFrom, ht.kind, ht.text, stringify_cons, stringify_eq hrest, ih]

theorem quoteOpen_eq (h : AllAlike ts us) : Program.quoteOpen ts = Program.quoteOpen us := by
  refine List.rel_foldl (P := Eq) ?_ rfl h
  rintro isOpen _ rfl t u ht
  dsimp only
  rw [ht.kind]

theorem ofRun_eq (start : Nat) {run run' : List Token} (hrun : AllAlike run run')
    (h : AllAlike ts us) : Program.ofRun start run ts = Program.ofRun start run' us := by
  have hhead := hrun.dropWhileEnd (p := (·.kind = .rParen)) fun ht => by rw [ht.kind]
  have hswitches : ∀ n, CmdArguments.ofTokens (ts.drop n) = CmdArguments.ofTokens (us.drop n) :=
    fun n => ofTokensFrom_eq [] (List.forall₂_drop n h)
  simp only [Program.ofRun, hhead.quoteOpen_eq, hhead.stringify_eq, hrun.length_eq, h.length_eq,
    hswitches]

/-- Alike tokens name the same program. -/
theorem identify_eq (h : AllAlike ts us) : Program.identify ts = Program.identify us := by
  have hleading : ∀ {t u : Token}, t.Alike u → Program.isLeading t = Program.isLeading u := by
    intro t u ht
    rw [Program.isLeading, Program.isLeading, ht.kind]
  have hends : ∀ {t u : Token}, t.Alike u → (!Program.endsHead t) = !Program.endsHead u := by
    intro t u ht
    rw [Program.endsHead, Program.endsHead, ht.kind]
  have hlength := (h.takeWhile hleading).length_eq
  have hdrop := h.dropWhile hleading
  rcases hts : ts.dropWhile Program.isLeading with _ | ⟨first, rest⟩
  · rw [hts] at hdrop
    simp only [Program.identify, hts, List.forall₂_nil_left_iff.1 hdrop]
  rw [hts] at hdrop
  obtain ⟨first', rest', hfirst, hrest, hus⟩ := List.forall₂_cons_left_iff.1 hdrop
  by_cases hset : first.kind = .setWord
  · have hnext : rest.head?.any (·.kind = .delimiter) = rest'.head?.any (·.kind = .delimiter) := by
      cases hrest with
      | nil => rfl
      | cons ht _ => exact congrArg (fun k => decide (k = .delimiter)) ht.kind
    rw [Program.identify_of_set hts hset, Program.identify_of_set hus (hfirst.kind ▸ hset), hlength,
      hnext, hfirst.text]
  · rw [Program.identify_of_ne_set hts hset, Program.identify_of_ne_set hus (hfirst.kind ▸ hset),
      hlength]
    exact ofRun_eq _ (.cons hfirst (takeWhile hends hrest)) h

end AllAlike

end Token

/-- Two commands that differ at most in where their tokens stand. -/
structure Command.Alike (c d : Command) : Prop where
  tokens : Token.AllAlike c.tokens d.tokens
  program : c.program = d.program
  text : c.text = d.text

namespace Command.Alike

variable {c d : Command}

theorem arguments (h : c.Alike d) : Token.AllAlike c.arguments d.arguments := by
  rw [Command.arguments, Command.arguments, h.program, Program.arguments, Program.arguments]
  cases d.program.offset with
  | none => exact h.tokens
  | some n => exact List.forall₂_drop n h.tokens

theorem line_eq (h : c.Alike d) : c.line = d.line := by
  rw [Command.line, Command.line, h.arguments.stringify_eq]

theorem cmdArguments_eq (h : c.Alike d) :
    CmdArguments.ofTokens c.arguments = CmdArguments.ofTokens d.arguments :=
  h.arguments.ofTokensFrom_eq []

theorem setArguments_eq (h : c.Alike d) : c.setArguments = d.setArguments := by
  rw [Command.setArguments, Command.setArguments, h.program, h.line_eq]

end Command.Alike

/-- The command that consists of some cleaned tokens. -/
def Command.ofTokens (tokens : List Token) : Command :=
  ⟨tokens, Program.identify tokens, Text.trim (Token.stringify tokens)⟩

theorem Command.ofBlock?_eq (cleaning : Cleaning) (block : List Token) :
    ofBlock? cleaning block =
      if (ofTokens (Block.peel (cleaning.apply block))).text.isEmpty then none
      else some (ofTokens (Block.peel (cleaning.apply block))) := rfl

theorem Command.eq_ofTokens_of_ofBlock? {cleaning : Cleaning} {block : List Token} {c : Command}
    (h : ofBlock? cleaning block = some c) : c = ofTokens (Block.peel (cleaning.apply block)) := by
  rw [ofBlock?_eq] at h
  split at h
  · simp at h
  · exact (Option.some.inj h).symm

theorem Command.ofTokens_alike {ts us : List Token} (h : Token.AllAlike ts us) :
    (ofTokens ts).Alike (ofTokens us) :=
  ⟨h, h.identify_eq, congrArg Text.trim h.stringify_eq⟩

/-- Alike blocks hold alike commands. -/
theorem Command.ofBlock?_alike (cleaning : Cleaning) {ts us : List Token}
    (h : Token.AllAlike ts us) :
    Option.Rel Command.Alike (ofBlock? cleaning ts) (ofBlock? cleaning us) := by
  have hcommand := ofTokens_alike (h.clean cleaning).peel
  rw [ofBlock?_eq, ofBlock?_eq, hcommand.text]
  split
  · exact .none
  · exact .some hcommand

end BatchTrace
