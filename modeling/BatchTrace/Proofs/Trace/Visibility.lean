/-
When an assignment can be seen.

A line is expanded as a whole before its first command runs, so `%name%` after a `SET` in
the same line is read too early.  What `SET` has written is seen one level below, in the frame
that `call` or `cmd` opens, and in the same frame by delayed expansion, which takes place
block by block.  Each way leads to the same text, whatever the name and the value are: in an
assignment and behind a command a reserved word is no more than a word.
-/
import BatchTrace.Proofs.Reference.Sigils
import BatchTrace.Proofs.Trace.Layers

namespace BatchTrace

open Lexeme

variable {n v w : Text}

/-! ### The commands of the line -/

/-- A command that does nothing but show a word. -/
def echo (w : Text) : Text :=
  "echo ".toList ++ w

/-- The command that assigns a variable. -/
def assignment (n v : Text) : Text :=
  "set ".toList ++ (n ++ '=' :: v)

/-- A word alone. -/
structure Single (w : Text) : Prop where
  calm : Calm w
  isWord : IsWord w []

theorem not_mem_echo {d : Char} (hd : d ∉ "echo ".toList) (hw : d ∉ w) : d ∉ echo w := by
  show d ∉ "echo ".toList ++ w
  rw [List.mem_append, not_or]
  exact ⟨hd, hw⟩

section

variable (hw : Single w)
include hw

theorem Single.calmly : Calmly w [⟨(Chunk.word w).kind, w⟩] := by
  by_cases hset : (Chunk.word w).kind = .setWord
  · -- The word begins an assignment that ends at once.
    have hcalmly := @Calmly.name w [] [] hw.isWord hset (by simp) (by simp) (by simp)
    rw [hset]
    rwa [List.append_nil, List.append_nil] at hcalmly
  · have hcalmly := Calmly.word hw.isWord hset .nil
    rwa [List.append_nil] at hcalmly

theorem worded_echo : Worded (echo w) := by
  refine ⟨fun c hc => ?_, 'e', rfl, rfl⟩
  rcases List.mem_append.mp hc with hc | hc
  · exact List.all_eq_true.mp (by decide : "echo ".toList.all isCalm = true) c hc
  · exact hw.calm c hc

theorem lexemes_echo : Lexer.lexemes (echo w) =
    [⟨.literal, "echo".toList⟩, ⟨.delimiter, [' ']⟩, ⟨(Chunk.word w).kind, w⟩] := by
  have hfirst : ∀ c ∈ w.head?, Chunk.isOrdinary c = true := fun c hc =>
    hw.isWord.ordinary c (List.mem_of_mem_head? hc)
  exact (Calmly.spaced "echo".toList (by decide) (by decide) (by decide) hfirst
    hw.calmly).lexemes_eq (worded_echo hw).calm

theorem tidy_lexemes_echo : tidy (Lexer.lexemes (echo w)) = Lexer.lexemes (echo w) := by
  have hdelimiter := Chunk.kind_word_ne_delimiter w
  have hword : tidy [⟨(Chunk.word w).kind, w⟩] = [⟨(Chunk.word w).kind, w⟩] := by
    rw [tidy_cons, if_neg (fun hboth => hdelimiter hboth.2), squeeze_of_ne hdelimiter]
    rfl
  rw [lexemes_echo hw]
  show tidy ([⟨.literal, "echo".toList⟩, ⟨.delimiter, [' ']⟩] ++ [⟨(Chunk.word w).kind, w⟩]) = _
  rw [tidy_append_of_ne_nil (by decide) (by simp [hword]), hword]
  rfl

theorem cleaned_echo : cleaned (echo w) = echo w := by
  refine (worded_echo hw).cleaned_of_tidy (tidy_lexemes_echo hw) fun c hc => ?_
  have hlast : ("echo ".toList ++ w).getLast? = w.getLast? :=
    List.getLast?_append_of_ne_nil _ hw.isWord.ne_nil
  have hmem : c ∈ w := List.mem_of_mem_getLast? (hlast ▸ hc)
  exact isBlank_of_isOrdinary (hw.calm c hmem) (hw.isWord.ordinary c hmem)

theorem name_echo :
    (Command.ofTokens (cleanTokens (echo w))).program.name = "echo".toList := by
  have hloose : ∀ u ∈ cleanTokens (echo w), u.kind.isLoose = true := fun u hu =>
    Kind.isLoose_of_isCalm ((worded_echo hw).isCalm_kind u hu)
  have hread := (worded_echo hw).map_lexeme
  rw [tidy_lexemes_echo hw, lexemes_echo hw] at hread
  obtain ⟨t₁, _, htokens, h₁, hread⟩ := List.map_eq_cons_iff.mp hread
  obtain ⟨t₂, ts, rfl, h₂, -⟩ := List.map_eq_cons_iff.mp hread
  obtain ⟨hkind, htext⟩ := Lexeme.mk.inj h₁
  rw [htokens] at hloose ⊢
  refine (Program.identify_spaced hloose (by simp [hkind]) (by simp [hkind])
    (Lexeme.mk.inj h₂).1).1.trans ?_
  rw [htext]
  decide

end

/-- A name or a value: letters and digits, at least one. -/
abbrev Plain (t : Text) : Prop :=
  Program.isPlain t = true

namespace Plain

variable {t : Text} (h : Plain t)
include h

theorem ne_nil : t ≠ [] := by
  rintro rfl
  exact absurd h (by decide)

theorem alphanum : ∀ c ∈ t, c.isAlphanum = true := by
  have hboth : (!t.isEmpty && t.all Char.isAlphanum) = true := h
  rw [Bool.and_eq_true, List.all_eq_true] at hboth
  exact hboth.2

theorem not_mem {d : Char} (hd : d.isAlphanum = false) : d ∉ t := fun hmem =>
  ne_of_isAlphanum (h.alphanum d hmem) hd rfl

theorem not_mem_reference {d sigil : Char} (hd : d.isAlphanum = false) (hne : d ≠ sigil) :
    d ∉ reference sigil t := by
  simp [reference, hne, h.not_mem hd]

theorem calm : Calm t := fun c hc =>
  forall_alphanum (p := isCalm) (by decide +kernel) (h.alphanum c hc)

theorem single : Single t where
  calm := h.calm
  isWord := ⟨h.ne_nil, fun c hc => isOrdinary_of_isAlphanum (h.alphanum c hc), by simp⟩

theorem single_reference (sigil : Char) (hcalm : isCalm sigil = true)
    (hordinary : Chunk.isOrdinary sigil = true) : Single (reference sigil t) := by
  have hmem : ∀ {p : Char → Bool}, p sigil = true → (∀ c ∈ t, p c = true) →
      ∀ c ∈ reference sigil t, p c = true := by
    intro p hsigil ht c hc
    rcases List.mem_cons.mp hc with rfl | hc
    · exact hsigil
    · rcases List.mem_append.mp hc with hc | hc
      · exact ht c hc
      · rw [List.mem_singleton.mp hc]
        exact hsigil
  exact ⟨hmem hcalm h.calm, by simp [reference], hmem hordinary h.single.isWord.ordinary, by simp⟩

theorem trimStart_append (s : Text) : Text.trimStart (t ++ s) = t ++ s := by
  refine Text.trimStart_of_head? fun c hc => ?_
  rw [List.head?_append_of_ne_nil _ h.ne_nil] at hc
  exact isBlank_of_isAlphanum (h.alphanum c (List.mem_of_mem_head? hc))

theorem last_append (s : Text) : ∀ c ∈ (s ++ t).getLast?, Text.isBlank c = false := by
  intro c hc
  rw [List.getLast?_append_of_ne_nil _ h.ne_nil] at hc
  exact isBlank_of_isAlphanum (h.alphanum c (List.mem_of_mem_getLast? hc))

end Plain

section

variable (hn : Plain n) (hv : Plain v)
include hn hv

theorem not_mem_assignment {d : Char} (hd : d.isAlphanum = false) (hne : d ∉ "set =".toList) :
    d ∉ assignment n v := by
  have hparts : d ∉ "set ".toList ++ ['='] := hne
  show d ∉ "set ".toList ++ (n ++ '=' :: v)
  rw [List.mem_append, List.mem_singleton, not_or] at hparts
  rw [List.mem_append, List.mem_append, List.mem_cons, not_or, not_or, not_or]
  exact ⟨hparts.1, hn.not_mem hd, hparts.2, hv.not_mem hd⟩

theorem worded_assignment : Worded (assignment n v) := by
  refine ⟨fun c hc => ?_, 's', rfl, rfl⟩
  rcases List.mem_append.mp hc with hc | hc
  · exact List.all_eq_true.mp (by decide : "set ".toList.all isCalm = true) c hc
  · rcases List.mem_append.mp hc with hc | hc
    · exact hn.calm c hc
    · rcases List.mem_cons.mp hc with rfl | hc
      · rfl
      · exact hv.calm c hc

theorem lexemes_assignment : Lexer.lexemes (assignment n v) =
    [⟨.setWord, "set".toList⟩, ⟨.delimiter, [' ']⟩, ⟨.setName, n⟩, ⟨.setAssignment, ['=']⟩,
      ⟨.setValue, v⟩] := by
  have hfirst : ∀ c ∈ (n ++ '=' :: v).head?, Chunk.isOrdinary c = true := by
    intro c hc
    rw [List.head?_append_of_ne_nil _ hn.ne_nil] at hc
    exact isOrdinary_of_isAlphanum (hn.alphanum c (List.mem_of_mem_head? hc))
  have hcalmly := @Calmly.name "set".toList [' '] (n ++ '=' :: v)
    ⟨by decide, List.all_eq_true.mp (by decide), by simp [Chunk.isDelimiter]⟩ (by decide)
    (by simp [Chunk.isDelimiter]) (by decide) hfirst
  rw [Lexer.quotedAssignment_append (hn.not_mem rfl), ofText_of_ne_nil hn.ne_nil,
    ofText_of_ne_nil hv.ne_nil, ofText_of_ne_nil (by decide)] at hcalmly
  exact hcalmly.lexemes_eq (worded_assignment hn hv).calm

theorem tidy_lexemes_assignment :
    tidy (Lexer.lexemes (assignment n v)) = Lexer.lexemes (assignment n v) := by
  rw [lexemes_assignment hn hv]
  show tidy ([⟨.setWord, "set".toList⟩, ⟨.delimiter, [' ']⟩] ++
    [⟨.setName, n⟩, ⟨.setAssignment, ['=']⟩, ⟨.setValue, v⟩]) = _
  rw [tidy_append (by simp [Kind.isAssigned]) (by simp)]
  rfl

theorem cleaned_assignment : cleaned (assignment n v) = assignment n v := by
  refine (worded_assignment hn hv).cleaned_of_tidy (tidy_lexemes_assignment hn hv) ?_
  have hlast := hv.last_append ("set ".toList ++ n ++ ['='])
  rwa [List.append_assoc, List.append_assoc] at hlast

/-- The command is `set`, and its arguments are the name and the value. -/
theorem setArguments_assignment :
    (Command.ofTokens (cleanTokens (assignment n v))).program.name = "set".toList ∧
      (Command.ofTokens (cleanTokens (assignment n v))).setArguments = n ++ '=' :: v := by
  have hread := (worded_assignment hn hv).map_lexeme
  rw [tidy_lexemes_assignment hn hv, lexemes_assignment hn hv] at hread
  obtain ⟨t₁, _, htokens, h₁, hread⟩ := List.map_eq_cons_iff.mp hread
  obtain ⟨t₂, ts, rfl, h₂, hread⟩ := List.map_eq_cons_iff.mp hread
  obtain ⟨hkind, htext⟩ := Lexeme.mk.inj h₁
  have hprogram : Program.identify (t₁ :: t₂ :: ts) = ⟨"set".toList, some 2, t₁.text, []⟩ := by
    have hidentify := Program.identify_setWord (List.forall_mem_nil _) hkind (t₂ :: ts)
    simpa [(Lexeme.mk.inj h₂).1] using hidentify
  have hlast := hv.last_append (n ++ ['='])
  have hline : Text.trim (Token.stringify ts) = n ++ '=' :: v := by
    rw [← Token.spell_map_lexeme, hread]
    show Text.trim (n ++ '=' :: (v ++ [])) = _
    rw [List.append_nil, Text.trim, hn.trimStart_append]
    exact Text.trimEnd_of_last (by rwa [List.append_assoc] at hlast)
  have hcommand : (Command.ofTokens (t₁ :: t₂ :: ts)).line = n ++ '=' :: v := by
    rw [Command.line, Command.arguments, Command.ofTokens, hprogram]
    exact hline
  rw [htokens]
  refine ⟨congrArg Program.name hprogram, ?_⟩
  have hhead : (Command.ofTokens (t₁ :: t₂ :: ts)).program.head = "set".toList :=
    (congrArg Program.head hprogram).trans htext
  rw [Command.setArguments, hhead, hcommand]
  rfl

end

theorem parse?_assignment (hn : Plain n) (v : Text) :
    Assignment.parse? (n ++ '=' :: v) = some (n, v) := by
  obtain ⟨c, more, rfl⟩ := List.exists_cons_of_ne_nil hn.ne_nil
  have hc := hn.alphanum c (by simp)
  have hswitch : Assignment.isSwitched (c :: more ++ '=' :: v) = false := by
    unfold Assignment.isSwitched
    split
    · rename_i heq
      exact absurd (List.cons.inj heq).1 (ne_of_isAlphanum hc rfl)
    · rfl
  have hbody : Assignment.body (c :: more ++ '=' :: v) = c :: more ++ '=' :: v := by
    unfold Assignment.body
    split
    · rename_i heq
      exact absurd (List.cons.inj heq).1 (ne_of_isAlphanum hc rfl)
    · rfl
  rw [Assignment.parse?, hn.trimStart_append, hswitch, hbody,
    splitFirst_equals (hn.not_mem rfl)]
  rfl

/-! ### Running the commands -/

namespace Interpreter

open Session

variable {it : Interpreter} {descend : Descend} {i left : Nat} {s : Session} {t : Text}
  {block : List Token}

/-- A text as delayed expansion in frame `f` leaves it. -/
def delayedText (it : Interpreter) (f : Frame) (t : Text) : Text :=
  if f.delayedExpansion then
    Expansion.expand ⟨'!', f.extensions it.options.extensions⟩
      (it.options.vars.overlay f.delayedVariables) t
  else t

theorem delayedText_of_not_mem (it : Interpreter) (f : Frame) (h : '!' ∉ t) :
    it.delayedText f t = t := by
  rw [delayedText, Expansion.expand_of_not_mem _ _ h, ite_self]

theorem allAlike_delayedBlock (it : Interpreter) (f : Frame)
    (h : Token.AllAlike block (Token.tokenize t)) :
    Token.AllAlike (it.delayedBlock f block) (Token.tokenize (it.delayedText f t)) := by
  have htext : Token.stringify block = t := h.stringify_eq.trans (Token.stringify_tokenize t)
  unfold delayedBlock
  rw [htext]
  by_cases hmem : '!' ∈ t
  · cases hdelayed : f.delayedExpansion with
    | true =>
        simp only [hdelayed, delayedText, List.contains_iff_mem.mpr hmem, Bool.and_true, if_true]
        exact .refl _
    | false => simpa [delayedText, hdelayed] using h
  · rw [delayedText_of_not_mem it f hmem]
    simpa [hmem] using h

/-- A block that is one command after delayed expansion. -/
theorem exists_runBlock_eq (descend : Descend) (hit : it.Usual)
    (halike : Token.AllAlike block (Token.tokenize t)) {t' : Text}
    (htext : it.delayedText (s.frame i) t = t') (h : Worded t') :
    ∃ c, c.Alike (Command.ofTokens (cleanTokens t')) ∧ c.text = cleaned t' ∧
      it.runBlock descend i s block = it.runCommand descend i c s := by
  have hrel := Command.ofBlock?_alike .standard (it.allAlike_delayedBlock (s.frame i) halike)
  rw [htext, h.ofBlock?_eq] at hrel
  rw [runBlock, hit.cleaning]
  generalize Command.ofBlock? .standard (it.delayedBlock (s.frame i) block) = found at hrel
  cases hrel with
  | @some c _ hc => exact ⟨c, hc, hc.text, rfl⟩

/-- What an assignment in frame `i` changes. -/
structure Assigns (n v : Text) (i : Nat) (s s' : Session) : Prop where
  numbered : s'.Numbered
  inRange : i < s'.frames.length
  texts : s'.texts = s.texts ++ [assignment n v]
  readable : (s'.frame i).readable = (s.frame i).readable
  assigned : (s'.frame i).assigned = (s.frame i).assigned.set n v
  options : (s'.frame i).options = (s.frame i).options

theorem assigns_runBlock (descend : Descend) (hit : it.Usual) (hs : s.Numbered)
    (hi : i < s.frames.length) (hn : Plain n) (hv : Plain v)
    (halike : Token.AllAlike block (Token.tokenize (assignment n v))) :
    Assigns n v i s (it.runBlock descend i s block) := by
  have hmark : '!' ∉ assignment n v := not_mem_assignment hn hv rfl (by decide)
  obtain ⟨c, hc, htext, hrun⟩ := exists_runBlock_eq descend hit halike
    (it.delayedText_of_not_mem (s.frame i) hmark) (worded_assignment hn hv)
  obtain ⟨hname, harguments⟩ := setArguments_assignment hn hv
  have hhandler : it.handler c.program.name = .set := by rw [hc.program, hname, hit.set]
  have hact : it.runCommand descend i c s = it.act i c s := by
    rw [runCommand_eq, nestedLine?, hhandler]
  have hset : it.act i c s =
      (s.assign i n v).record i "set".toList c.setArguments [] c.text := by
    rw [act, hhandler]
    show runSet i c s = _
    rw [runSet, hc.setArguments_eq, harguments, parse?_assignment hn v]
  have hin : i < (s.assign i n v).frames.length := by simpa using hi
  have hframe : (it.act i c s).frame i =
      { s.frame i with
        assigned := (s.frame i).assigned.set n v
        commands := (s.frame i).commands ++
          [⟨"set".toList, c.setArguments, [], c.text, s.seq⟩] } := by
    rw [hset, frame_record_self hin, frame_assign_self hi]
    rfl
  have htrace := it.texts_act hs hi c
  rw [htext, cleaned_assignment hn hv] at htrace
  rw [hrun, hact]
  refine ⟨it.numbered_act hs hi c, ?_, htrace, by rw [hframe], by rw [hframe], by rw [hframe]⟩
  exact Nat.lt_of_lt_of_le hi (it.length_le_act i c s)

/-- A command that only shows a word runs nothing below itself. -/
theorem texts_runBlock_echo (hit : it.Usual) (hecho : it.handler "echo".toList = .generic)
    (hs : s.Numbered) (hi : i < s.frames.length) (hw : Single w)
    (halike : Token.AllAlike block (Token.tokenize t))
    (htext : it.delayedText (s.frame i) t = echo w) :
    (it.runBlock descend i s block).texts = s.texts ++ [echo w] := by
  obtain ⟨c, hc, hrecorded, hrun⟩ := exists_runBlock_eq descend hit halike htext (worded_echo hw)
  have hnone : it.nestedLine? c = none := by
    rw [nestedLine?, hc.program, name_echo hw, hecho]
  have htrace := it.texts_act hs hi c
  rw [hrecorded, cleaned_echo hw] at htrace
  rw [hrun, runCommand_eq, hnone]
  exact htrace

/-- The frame that a wrapper opens reads what has been assigned in the frame around it. -/
theorem readable_act (hit : it.Usual) (wr : Wrapper) {c : Command}
    (hname : c.program.name = wr.name) (i : Nat) (s : Session) :
    ((it.act i c s).frame s.frames.length).readable = (s.frame i).assigned := by
  have hopened : ∀ (f : Frame) (name line : Text) (options : Switches) (text : Text),
      ((s.push f).record s.frames.length name line options text).frame s.frames.length =
        { f with commands := f.commands ++ [⟨name, line, options, text, s.seq⟩] } := by
    intro f name line options text
    rw [frame_record_self (by simp), frame_push_self]
    rfl
  cases wr with
  | cmd =>
      have hopen : ((openCmd i c s).frame s.frames.length).readable = (s.frame i).assigned := by
        rw [openCmd, hopened]
        rfl
      rw [act, hname, Wrapper.name, hit.cmd]
      dsimp only
      split
      · exact hopen
      · exact hopen
  | call =>
      rw [act, hname, Wrapper.name, hit.call]
      show ((openCall i c s).frame s.frames.length).readable = _
      rw [openCall, hopened]
      rfl

section

variable (hit : it.Usual) (hecho : it.handler "echo".toList = .generic)
  (hn : Plain n) (hv : Plain v)
  (hnames : ∀ u ∈ it.options.vars.entries, ∀ c ∈ u.name, c.toNat < 128)
  (hnew : it.options.vars.contains n = false)
include hit hecho hn hv hnames hnew

/-- **Below a wrapper an assignment is seen.** -/
theorem texts_runBlock_wrapped (hs : s.Numbered) (hi : i < s.frames.length)
    (hassigned : (s.frame i).assigned = ⟨[⟨n, v⟩]⟩) (wr : Wrapper)
    (halike : Token.AllAlike block (Token.tokenize (wr.opening ++ echo (reference '%' n)))) :
    (it.runBlock (it.below (left + 1)) i s block).texts =
      s.texts ++ [wr.opening ++ echo (reference '%' n), echo v] := by
  have hsingle : Single (reference '%' n) := hn.single_reference '%' rfl rfl
  have hworded := worded_echo hsingle
  have hcleaned := cleaned_echo hsingle
  have hopening : '!' ∉ wr.opening := by cases wr <;> decide
  have hmark : '!' ∉ wr.opening ++ echo (reference '%' n) := by
    rw [List.mem_append, not_or]
    exact ⟨hopening, not_mem_echo (by decide) (hn.not_mem_reference rfl (by decide))⟩
  obtain ⟨c, hc, htext, hrun⟩ := exists_runBlock_eq (it.below (left + 1)) hit halike
    (it.delayedText_of_not_mem (s.frame i) hmark) (wr.worded_append hworded)
  have hbare : it.isBareCmd (echo (reference '%' n)) = false := by
    rw [isBareCmd_eq hit, name_echo hsingle]
    rfl
  have hnested : it.nestedLine? c = some (echo (reference '%' n)) := by
    rw [it.nestedLine?_alike hc, nestedLine?_append hit wr hworded fun _ => by rwa [hcleaned],
      hcleaned]
  have htrace := it.texts_act hs hi c
  rw [htext, wr.cleaned_append hworded, hcleaned] at htrace
  have hname : c.program.name = wr.name := by rw [hc.program, (wr.holds hworded).name]
  have hexpand : it.expandLine (it.act i c s) (some s.frames.length) (echo (reference '%' n)) =
      echo v := by
    show Expansion.expand _ (it.options.vars.overlay
      ((it.act i c s).frame s.frames.length).readable) (echo (reference '%' n)) = _
    rw [readable_act hit wr hname, hassigned]
    exact Expansion.expand_reference_set (e := ⟨'%', _⟩) (by simp) hn.alphanum
      (hn.not_mem rfl) hnames hnew hn.ne_nil (hv.not_mem rfl)
  have hshown : '!' ∉ echo v := not_mem_echo (by decide) (hv.not_mem rfl)
  rw [hrun, runCommand_eq, hnested]
  dsimp only
  rw [below, runLine_succ, hexpand, (worded_echo hv.single).blocks_eq, List.foldl_cons,
    List.foldl_nil, texts_runBlock_echo hit hecho (it.numbered_act hs hi c)
      (it.length_lt_act hnested i s) hv.single (.refl _) (it.delayedText_of_not_mem _ hshown),
    htrace, List.append_assoc]
  rfl

end

/-- A line of an assignment and one more command runs the two one after the other. -/
theorem exists_run_eq (hit : it.Usual) (hn : Plain n) (hv : Plain v)
    (hlimit : it.options.maxDepth = left + 1) {b : Text} (hb : Worded b)
    (hexpand : it.expandLine .empty none (assignment n v ++ '&' :: b) =
      assignment n v ++ '&' :: b) :
    ∃ s block, Assigns n v 0 (it.withRoot .empty) s ∧
      Token.AllAlike block (Token.tokenize b) ∧
      it.run (assignment n v ++ '&' :: b) = it.runBlock (it.below left) 0 s block := by
  have ha := worded_assignment hn hv
  have hamp : '&' ∉ b.head? := fun hmem =>
    absurd (hb.calm _ (List.mem_of_mem_head? hmem)) (by decide)
  obtain ⟨blocks, hblocks, halike⟩ :=
    Block.ofTokens_ampersand ha.calm.quiet ha.calm.closed hamp
  rw [hb.blocks_eq] at halike
  obtain ⟨block, rest, hblock, hrest, rfl⟩ := List.forall₂_cons_right_iff.mp halike
  obtain rfl := List.forall₂_nil_right_iff.mp hrest
  rw [ha.blocks_eq, List.singleton_append] at hblocks
  have hroot : (it.withRoot .empty).Numbered := it.pruned_root.numbered
  refine ⟨_, block, assigns_runBlock (it.below left) hit hroot (it.withRoot_pos _) hn hv
    (.refl _), hblock, ?_⟩
  rw [run, hlimit, it.runLine_succ_none left _ .empty (by rw [hexpand, hblocks])]
  rfl

theorem Assigns.texts_root (h : Assigns n v 0 (it.withRoot .empty) s) :
    s.texts = [assignment n v] := by
  rw [h.texts, texts_of_held_nil rfl, List.nil_append]

theorem Assigns.assigned_root (h : Assigns n v 0 (it.withRoot .empty) s) :
    (s.frame 0).assigned = ⟨[⟨n, v⟩]⟩ := by
  rw [h.assigned]
  rfl

section

variable (hit : it.Usual) (hecho : it.handler "echo".toList = .generic)
  (hn : Plain n) (hv : Plain v)
  (hnames : ∀ u ∈ it.options.vars.entries, ∀ c ∈ u.name, c.toNat < 128)
  (hnew : it.options.vars.contains n = false)
include hn hv hnames hnew

/-- The whole line is expanded before the assignment takes place. -/
theorem expandLine_early (front : Text) (hfront : '%' ∉ front) :
    it.expandLine .empty none (assignment n v ++ '&' :: (front ++ echo (reference '%' n))) =
      assignment n v ++ '&' :: (front ++ echo (reference '%' n)) := by
  have hbefore : '%' ∉ assignment n v ++ '&' :: (front ++ "echo ".toList) := by
    rw [List.mem_append, List.mem_cons, List.mem_append, not_or, not_or, not_or]
    exact ⟨not_mem_assignment hn hv rfl (by decide), by decide, hfront, by decide⟩
  have hexpand := Expansion.expand_reference_unknown (e := ⟨'%', it.options.extensions⟩) hbefore
    hn.alphanum (hn.not_mem rfl) hnames hnew (by simp)
  rwa [List.append_assoc, List.cons_append, List.append_assoc] at hexpand

include hit hecho

theorem texts_run_wrapped (hlimit : it.options.maxDepth = left + 1 + 1) (wr : Wrapper) :
    (it.run (assignment n v ++ '&' :: (wr.opening ++ echo (reference '%' n)))).texts =
      [assignment n v, wr.opening ++ echo (reference '%' n), echo v] := by
  have hopening : '%' ∉ wr.opening := by cases wr <;> decide
  obtain ⟨s, block, hs, halike, hrun⟩ := exists_run_eq hit hn hv hlimit
    (wr.worded_append (worded_echo (hn.single_reference '%' rfl rfl)))
    (expandLine_early hn hv hnames hnew _ hopening)
  rw [hrun, texts_runBlock_wrapped hit hecho hn hv hnames hnew hs.numbered hs.inRange
    hs.assigned_root wr halike, hs.texts_root]
  rfl

theorem texts_run_early (hlimit : it.options.maxDepth = left + 1) :
    (it.run (assignment n v ++ '&' :: echo (reference '%' n))).texts =
      [assignment n v, echo (reference '%' n)] := by
  have hsingle : Single (reference '%' n) := hn.single_reference '%' rfl rfl
  have hmark : '!' ∉ echo (reference '%' n) :=
    not_mem_echo (by decide) (hn.not_mem_reference rfl (by decide))
  obtain ⟨s, block, hs, halike, hrun⟩ := exists_run_eq hit hn hv hlimit (worded_echo hsingle)
    (expandLine_early hn hv hnames hnew [] (by simp))
  rw [hrun, texts_runBlock_echo hit hecho hs.numbered hs.inRange hsingle halike
    (it.delayedText_of_not_mem _ hmark), hs.texts_root]
  rfl

theorem texts_run_delayed (hlimit : it.options.maxDepth = left + 1)
    (hdelayed : (rootFrame it.options).delayedExpansion = true) :
    (it.run (assignment n v ++ '&' :: echo (reference '!' n))).texts =
      [assignment n v, echo v] := by
  have hmark : '%' ∉ assignment n v ++ '&' :: echo (reference '!' n) := by
    rw [List.mem_append, List.mem_cons, not_or, not_or]
    exact ⟨not_mem_assignment hn hv rfl (by decide), by decide,
      not_mem_echo (by decide) (hn.not_mem_reference rfl (by decide))⟩
  obtain ⟨s, block, hs, halike, hrun⟩ := exists_run_eq hit hn hv hlimit
    (worded_echo (hn.single_reference '!' rfl rfl))
    (Expansion.expand_of_not_mem _ _ hmark)
  -- The block is expanded in the session that the assignment leaves.
  have htext : it.delayedText (s.frame 0) (echo (reference '!' n)) = echo v := by
    have hvariables : (s.frame 0).delayedVariables = ⟨[⟨n, v⟩]⟩ := by
      rw [Frame.delayedVariables, hs.assigned_root, hs.readable]
      rfl
    have hframe : (s.frame 0).delayedExpansion = true := by
      rw [Frame.delayedExpansion, hs.options]
      exact hdelayed
    rw [delayedText, if_pos hframe, hvariables]
    exact Expansion.expand_reference_set (e := ⟨'!', _⟩) (by simp) hn.alphanum
      (hn.not_mem rfl) hnames hnew hn.ne_nil (hv.not_mem rfl)
  rw [hrun, texts_runBlock_echo hit hecho hs.numbered hs.inRange hv.single halike htext,
    hs.texts_root]
  rfl

end

theorem handler_echo {options : Options} (hpass : options.passthrough = []) :
    (builtin options).handler "echo".toList = .generic := by
  rw [handler, handlers_builtin hpass]
  rfl

end Interpreter

/-- With these options a text runs these commands, in this order, and no others. -/
def Traces (options : Options) (text : Text) (commands : List Text) : Prop :=
  ∃ r, interpret options text = .ok r ∧ r.commands = commands

theorem traces_of_texts {options : Options} (hdepth : options.maxDepth ≠ 0) {text : Text}
    {commands : List Text} (h : ((Interpreter.builtin options).run text).texts = commands) :
    Traces options text commands :=
  ⟨_, interpret_eq_ok hdepth text, h⟩

/--
**An assignment is seen one level below or by delayed expansion, and not before.**  Let `n` be
the name of none of the variables that are there from the start.  A command after `set n=v` in
the same line finds the value of `%n%` below `call` or `cmd /c`, and that of `!n!` where delayed
expansion is on, but `%n%` in the line itself is left as it stands.
-/
theorem interpret_deferred (n v : Text) (hn : Plain n) (hv : Plain v)
    (hnew : Variables.standard.contains n = false) :
    Traces {} (assignment n v ++ '&' :: ("call ".toList ++ echo (reference '%' n)))
      [assignment n v, "call ".toList ++ echo (reference '%' n), echo v] ∧
    Traces {} (assignment n v ++ '&' :: ("cmd /c ".toList ++ echo (reference '%' n)))
      [assignment n v, "cmd /c ".toList ++ echo (reference '%' n), echo v] ∧
    Traces { delayedExpansion := true } (assignment n v ++ '&' :: echo (reference '!' n))
      [assignment n v, echo v] ∧
    Traces {} (assignment n v ++ '&' :: echo (reference '%' n))
      [assignment n v, echo (reference '%' n)] := by
  have hascii : Variables.standard.entries.all (·.name.all (·.toNat < 128)) = true := by decide
  have hnames : ∀ u ∈ Variables.standard.entries, ∀ c ∈ u.name, c.toNat < 128 := by
    intro u hu c hc
    simpa using List.all_eq_true.mp (List.all_eq_true.mp hascii u hu) c hc
  have hit : (Interpreter.builtin {}).Usual := Interpreter.usual_builtin rfl rfl
  have hit' : (Interpreter.builtin { delayedExpansion := true }).Usual :=
    Interpreter.usual_builtin rfl rfl
  have hecho : (Interpreter.builtin {}).handler "echo".toList = .generic :=
    Interpreter.handler_echo rfl
  refine ⟨?_, ?_, ?_, ?_⟩
  · exact traces_of_texts (by decide)
      (Interpreter.texts_run_wrapped hit hecho hn hv hnames hnew rfl .call)
  · exact traces_of_texts (by decide)
      (Interpreter.texts_run_wrapped hit hecho hn hv hnames hnew rfl .cmd)
  · exact traces_of_texts (by decide)
      (Interpreter.texts_run_delayed hit' (Interpreter.handler_echo rfl) hn hv hnames hnew rfl rfl)
  · exact traces_of_texts (by decide)
      (Interpreter.texts_run_early hit hecho hn hv hnames hnew rfl)

/-- The name and the value are reserved words, and the value would begin an assignment if it stood
at the start of a line. -/
theorem interpret_deferred_reserved :
    let n := "If".toList
    let v := "set".toList
    (Plain n ∧ Plain v ∧ Variables.standard.contains n = false) ∧
    Traces {} "set If=set&call echo %If%".toList
      ["set If=set".toList, "call echo %If%".toList, "echo set".toList] ∧
    Traces {} "set If=set&cmd /c echo %If%".toList
      ["set If=set".toList, "cmd /c echo %If%".toList, "echo set".toList] ∧
    Traces { delayedExpansion := true } "set If=set&echo !If!".toList
      ["set If=set".toList, "echo set".toList] ∧
    Traces {} "set If=set&echo %If%".toList ["set If=set".toList, "echo %If%".toList] := by
  intro n v
  have hn : Plain n := by decide
  have hv : Plain v := by decide
  have hnew : Variables.standard.contains n = false := by decide +kernel
  exact ⟨⟨hn, hv, hnew⟩, interpret_deferred n v hn hv hnew⟩

end BatchTrace
