/-
Commands wrapped in commands.

`cmd /c` and `call` in front of a command run it one level deeper.  What they hand down is
the text of the command as it is recorded, so every further layer finds the text in the form
that the first one has given it.  Each layer adds a record of its own to the trace, and below
the last one runs what would have run without any.

There is one exception.  `cmd` does not run a body that is `cmd` itself, and whether it is one
is seen from the recorded text.
-/
import BatchTrace.Proofs.Trace.CalmCommands

namespace BatchTrace

open Lexeme

variable {t : Text}

/-- A command that runs the rest of its line. -/
inductive Wrapper where
  | cmd
  | call
deriving DecidableEq, Repr

namespace Wrapper

/-- The program of a wrapper. -/
def name : Wrapper → Text
  | cmd => "cmd".toList
  | call => "call".toList

/-- What is written in front of the line. -/
def opening : Wrapper → Text
  | cmd => "cmd /c ".toList
  | call => "call ".toList

/-- What that is read as. -/
def lexemes : Wrapper → List Lexeme
  | cmd =>
      [⟨.literal, "cmd".toList⟩, ⟨.delimiter, [' ']⟩, ⟨.literal, "/c".toList⟩, ⟨.delimiter, [' ']⟩]
  | call => [⟨.callWord, "call".toList⟩, ⟨.delimiter, [' ']⟩]

end Wrapper

/-- A text inside some wrappers, the first of them outermost. -/
def wrap (ws : List Wrapper) (t : Text) : Text :=
  ws.flatMap Wrapper.opening ++ t

theorem wrap_cons (w : Wrapper) (ws : List Wrapper) (t : Text) :
    wrap (w :: ws) t = w.opening ++ wrap ws t := by
  rw [wrap, List.flatMap_cons, List.append_assoc]
  rfl

/-- The lines that the wrappers of a text stand at the start of. -/
def layers : List Wrapper → Text → List Text
  | [], _ => []
  | w :: ws, t => wrap (w :: ws) t :: layers ws t

/-! ### Reading a wrapper -/

/-- A word and a space in front of a text. -/
theorem Calmly.spaced (run : Text) {xs : List Lexeme} (hne : run ≠ [])
    (hrun : run.all Chunk.isOrdinary = true) (hset : (Chunk.word run).kind ≠ .setWord)
    (hfirst : ∀ c ∈ t.head?, Chunk.isOrdinary c = true) (h : Calmly t xs) :
    Calmly (run ++ ' ' :: t) (⟨(Chunk.word run).kind, run⟩ :: ⟨.delimiter, [' ']⟩ :: xs) := by
  have hgap : Calmly ([' '] ++ t) (⟨.delimiter, [' ']⟩ :: xs) :=
    .gap ⟨by simp, by simp [Chunk.isDelimiter], hfirst⟩ h
  exact .word ⟨hne, List.all_eq_true.mp hrun, by simp [Chunk.isDelimiter]⟩ hset hgap

/-- Lexemes that cleaning does not change, in front of some that it does not drop. -/
theorem Lexeme.tidy_append_of_ne_nil {us xs : List Lexeme} (hus : ∀ x ∈ us, x.squeeze = x)
    (hxs : tidy xs ≠ []) : tidy (us ++ xs) = us ++ tidy xs := by
  induction us with
  | nil => rfl
  | cons x us ih =>
      have hrest := ih fun y hy => hus y (by simp [hy])
      rw [List.cons_append, tidy_cons, hrest, if_neg (by simp [hxs]), hus x (by simp)]
      rfl

namespace Wrapper

variable (w : Wrapper)

theorem calm_opening : Calm w.opening := by
  cases w with
  | cmd => exact List.all_eq_true.mp (by decide)
  | call => exact List.all_eq_true.mp (by decide)

theorem spell_lexemes : spell w.lexemes = w.opening := by
  cases w <;> rfl

theorem worded_append (h : Worded t) : Worded (w.opening ++ t) := by
  refine ⟨fun c hc => ?_, 'c', by cases w <;> rfl, rfl⟩
  rcases List.mem_append.mp hc with hc | hc
  · exact w.calm_opening c hc
  · exact h.calm c hc

theorem lexemes_append (h : Worded t) :
    Lexer.lexemes (w.opening ++ t) = w.lexemes ++ Lexer.lexemes t := by
  have hcalm := (w.worded_append h).calm
  have hslash : ∀ c ∈ ("/c".toList ++ ' ' :: t).head?, Chunk.isOrdinary c = true := by
    rintro c ⟨⟩
    rfl
  cases w with
  | cmd =>
      exact (Calmly.spaced "cmd".toList (by decide) (by decide) (by decide) hslash
        (.spaced "/c".toList (by decide) (by decide) (by decide) h.ordinary
          h.calm.calmly)).lexemes_eq hcalm
  | call =>
      exact (Calmly.spaced "call".toList (by decide) (by decide) (by decide) h.ordinary
        h.calm.calmly).lexemes_eq hcalm

theorem map_lexeme_append (h : Worded t) :
    (cleanTokens (w.opening ++ t)).map Token.lexeme =
      w.lexemes ++ (cleanTokens t).map Token.lexeme := by
  have hsqueezed : ∀ x ∈ w.lexemes, x.squeeze = x := by
    cases w <;> decide
  obtain ⟨run, xs, -, htidy, -⟩ := h.exists_lexemes_eq
  rw [(w.worded_append h).map_lexeme, w.lexemes_append h, h.map_lexeme,
    tidy_append_of_ne_nil hsqueezed (by simp [htidy])]

/-- The recorded text of a wrapped command is the recorded text of the command in the wrapper. -/
theorem cleaned_append (h : Worded t) : cleaned (w.opening ++ t) = w.opening ++ cleaned t := by
  have hne := h.cleaned_ne_nil
  rw [h.cleaned_eq] at hne
  rw [(w.worded_append h).cleaned_eq, ← (w.worded_append h).map_lexeme, w.map_lexeme_append h,
    spell_append, w.spell_lexemes, h.map_lexeme, Text.trimEnd_append_of_ne_nil hne, ← h.cleaned_eq]

end Wrapper

theorem worded_wrap (ws : List Wrapper) (h : Worded t) : Worded (wrap ws t) := by
  induction ws with
  | nil => exact h
  | cons w ws ih =>
      rw [wrap_cons]
      exact w.worded_append ih

theorem cleaned_wrap (ws : List Wrapper) (h : Worded t) :
    cleaned (wrap ws t) = wrap ws (cleaned t) := by
  induction ws with
  | nil => rfl
  | cons w ws ih => rw [wrap_cons, w.cleaned_append (worded_wrap ws h), ih, wrap_cons]

/-! ### Running a wrapper -/

/-- The text that a wrapper hands down. -/
def Wrapper.inside : Wrapper → Command → Text
  | cmd, c => c.body
  | call, c => c.line

/-- A body that begins with a letter or a digit is not taken for a switch. -/
theorem Worded.body_eq (h : Worded t) (table : Switches) {ts : List Token}
    (hts : ts.map Token.lexeme = (cleanTokens t).map Token.lexeme) :
    (CmdArguments.ofTokensFrom table ts).body = Token.stringify ts := by
  obtain ⟨run, xs, -, htidy, c, hc, halpha⟩ := h.exists_lexemes_eq
  rw [h.map_lexeme, htidy] at hts
  obtain ⟨u, us, rfl, hu, -⟩ := List.map_eq_cons_iff.mp hts
  have hkind : u.kind = (Chunk.word run).kind := congrArg Lexeme.kind hu
  have htext : u.text = run := congrArg Lexeme.text hu
  have hread : WrittenSwitch.readWord? u.text = none := by
    obtain ⟨more, hmore⟩ := List.head?_eq_some_iff.mp hc
    rw [htext, hmore]
    refine WrittenSwitch.readWord?_of_ne fun letter tail heq => ?_
    exact ne_of_isAlphanum halpha (d := '/') (by decide) (List.cons.inj heq).1
  rw [CmdArguments.ofTokensFrom]
  split
  · rename_i hnot
    exact absurd (hkind.symm.trans hnot) (Chunk.kind_word_ne_delimiter run)
  · rw [hread]
  · rfl

namespace Wrapper

variable (w : Wrapper)

/-- What a wrapper with a command in it is taken apart into. -/
structure Holds (c : Command) (t : Text) : Prop where
  name : c.program.name = w.name
  arguments : c.arguments ≠ []
  inside : w.inside c = cleaned t

theorem holds (h : Worded t) : w.Holds (Command.ofTokens (cleanTokens (w.opening ++ t))) t := by
  have hread := w.map_lexeme_append h
  have hloose : ∀ u ∈ cleanTokens (w.opening ++ t), u.kind.isLoose = true := fun u hu =>
    Kind.isLoose_of_isCalm ((w.worded_append h).isCalm_kind u hu)
  have hspell : ∀ ts : List Token, ts.map Token.lexeme = (cleanTokens t).map Token.lexeme →
      Token.stringify ts = Token.stringify (cleanTokens t) := by
    intro ts hts
    rw [← Token.spell_map_lexeme, hts, Token.spell_map_lexeme]
  have hne : ∀ ts : List Token, ts.map Token.lexeme = (cleanTokens t).map Token.lexeme →
      ts ≠ [] := by
    rintro ts hts rfl
    obtain ⟨run, xs, -, htidy, -⟩ := h.exists_lexemes_eq
    rw [h.map_lexeme, htidy] at hts
    exact absurd hts (by simp)
  cases w with
  | cmd =>
      obtain ⟨t₁, _, htokens, h₁, hread⟩ := List.map_eq_cons_iff.mp hread
      obtain ⟨t₂, _, rfl, h₂, hread⟩ := List.map_eq_cons_iff.mp hread
      obtain ⟨t₃, _, rfl, h₃, hread⟩ := List.map_eq_cons_iff.mp hread
      obtain ⟨t₄, ts, rfl, h₄, hread⟩ := List.map_eq_cons_iff.mp hread
      obtain ⟨hkind₁, htext₁⟩ := Lexeme.mk.inj h₁
      obtain ⟨hkind₃, htext₃⟩ := Lexeme.mk.inj h₃
      rw [htokens] at hloose ⊢
      obtain ⟨hname, harguments⟩ := Program.identify_spaced hloose (by simp [hkind₁])
        (by simp [hkind₁]) (Lexeme.mk.inj h₂).1
      have harguments : (Command.ofTokens (t₁ :: t₂ :: t₃ :: t₄ :: ts)).arguments =
          t₃ :: t₄ :: ts := harguments
      have hswitch : WrittenSwitch.readWord? t₃.text = some ([⟨'c', none⟩], []) := by
        rw [htext₃]
        show WrittenSwitch.readWord? ['/', 'c'] = _
        rw [WrittenSwitch.readWord?]
        rfl
      refine ⟨hname.trans (by rw [htext₁]; decide), by rw [harguments]; simp, ?_⟩
      rw [inside, Command.body, harguments, CmdArguments.ofTokens, CmdArguments.ofTokensFrom]
      simp only [hkind₃, hswitch]
      rw [CmdArguments.ofTokensFrom]
      simp only [(Lexeme.mk.inj h₄).1]
      rw [h.body_eq _ hread, hspell ts hread]
      rfl
  | call =>
      obtain ⟨t₁, _, htokens, h₁, hread⟩ := List.map_eq_cons_iff.mp hread
      obtain ⟨t₂, ts, rfl, h₂, hread⟩ := List.map_eq_cons_iff.mp hread
      obtain ⟨hkind₁, htext₁⟩ := Lexeme.mk.inj h₁
      rw [htokens] at hloose ⊢
      obtain ⟨hname, harguments⟩ := Program.identify_spaced hloose (by simp [hkind₁])
        (by simp [hkind₁]) (Lexeme.mk.inj h₂).1
      have harguments : (Command.ofTokens (t₁ :: t₂ :: ts)).arguments = ts := harguments
      refine ⟨hname.trans (by rw [htext₁]; decide), by rw [harguments]; exact hne ts hread, ?_⟩
      rw [inside, Command.line, harguments, hspell ts hread]
      rfl

end Wrapper

/-- A recorded text is a line as it stands. -/
theorem Worded.bodyLine_cleaned (h : Worded t) :
    Interpreter.bodyLine (cleaned t) = cleaned t := by
  have hquote : '"' ∉ cleaned t := fun hmem =>
    absurd (h.worded_cleaned.calm _ hmem) (by decide)
  have hfirst : Text.dropFirstChar '"' (cleaned t) = cleaned t := by
    cases hcleaned : cleaned t with
    | nil => rfl
    | cons c rest => exact if_neg (ne_of_mem_of_not_mem (by simp [hcleaned]) hquote)
  have hlast : Text.dropLastChar '"' (cleaned t) = cleaned t :=
    if_neg fun hsome => hquote (List.mem_of_mem_getLast? hsome)
  obtain ⟨c, hc, halpha⟩ := h.worded_cleaned.first
  have hstart : Text.trimStart (cleaned t) = cleaned t := Text.trimStart_of_head? fun d hd => by
    rw [Option.mem_unique hd hc]
    exact isBlank_of_isAlphanum halpha
  rw [Interpreter.bodyLine, hfirst, hlast, Text.trim, hstart, h.cleaned_eq, Text.trimEnd_trimEnd]

namespace Interpreter

variable {it : Interpreter}

theorem isBareCmd_eq (hit : it.Usual) (t : Text) :
    it.isBareCmd t = (decide ((Command.ofTokens (cleanTokens t)).program.name = "cmd".toList) &&
      (Command.ofTokens (cleanTokens t)).arguments.isEmpty) := by
  rw [isBareCmd, Command.identify, hit.cleaning]
  rfl

/-- With a command in it, `cmd` is not the bare one. -/
theorem isBareCmd_append (hit : it.Usual) (w : Wrapper) (h : Worded t) :
    it.isBareCmd (w.opening ++ t) = false := by
  rw [isBareCmd_eq hit, List.isEmpty_eq_false_iff.mpr (w.holds h).arguments, Bool.and_false]

/-- **A wrapper runs the recorded text of the command in it.** -/
theorem nestedLine?_append (hit : it.Usual) (w : Wrapper) (h : Worded t)
    (hbare : w = .cmd → it.isBareCmd (cleaned t) = false) :
    it.nestedLine? (Command.ofTokens (cleanTokens (w.opening ++ t))) = some (cleaned t) := by
  obtain ⟨hname, -, hinside⟩ := w.holds h
  have hempty : (cleaned t).isEmpty = false := List.isEmpty_eq_false_iff.mpr h.cleaned_ne_nil
  rw [nestedLine?, hname]
  cases w with
  | cmd =>
      rw [show Command.body _ = cleaned t from hinside, h.bodyLine_cleaned, Wrapper.name, hit.cmd]
      simp [hempty, hbare rfl]
  | call =>
      rw [show Command.line _ = cleaned t from hinside, Wrapper.name, hit.call]
      simp [hempty]

/-! ### What is noted of wrapped commands -/

/-- The records that a line without references makes, their numbers left out. -/
abbrev entries (it : Interpreter) (left : Nat) (t : Text) : List Record :=
  it.unroll (fun c => [it.entry c 0]) (fun _ => []) left t

theorem entries_succ (hit : it.Usual) (h : Worded t) (left : Nat) :
    it.entries (left + 1) t = it.entry (Command.ofTokens (cleanTokens t)) 0 ::
      match it.nestedLine? (Command.ofTokens (cleanTokens t)) with
      | some line => it.entries left line
      | none => [] := by
  rw [entries, unroll, h.plainCommands_eq hit.cleaning, List.flatMap_singleton]
  rfl

/-- A command and its recorded text make records with the same texts. -/
theorem texts_entries_cleaned (hit : it.Usual) (h : Worded t) (left : Nat) :
    (it.entries (left + 1) (cleaned t)).map (·.text) =
      (it.entries (left + 1) t).map (·.text) := by
  rw [entries_succ hit h.worded_cleaned, entries_succ hit h, nestedLine?_cleaned hit h,
    List.map_cons, List.map_cons, text_entry, text_entry]
  refine congrArg (· :: _) ?_
  exact h.cleaned_cleaned

theorem name_entry_append (hit : it.Usual) (w : Wrapper) (h : Worded t) (n : Nat) :
    (it.entry (Command.ofTokens (cleanTokens (w.opening ++ t))) n).name = w.name := by
  rw [entry, (w.holds h).name]
  cases w with
  | cmd => rw [Wrapper.name, hit.cmd]
  | call => rw [Wrapper.name, hit.call]

/-- Each wrapper adds one record in front. -/
theorem exists_entries_wrap (hit : it.Usual) (ws : List Wrapper) (h : Worded t) (left : Nat)
    (hbare : ws.getLast? = some .cmd → it.isBareCmd (cleaned t) = false) :
    ∃ es rs, it.entries (left + 1 + ws.length) (wrap ws t) = es ++ rs ∧
      es.map (·.text) = layers ws (cleaned t) ∧ es.map (·.name) = ws.map Wrapper.name ∧
      rs.map (·.text) = (it.entries (left + 1) t).map (·.text) := by
  induction ws generalizing t with
  | nil => exact ⟨[], _, rfl, rfl, rfl, rfl⟩
  | cons w ws ih =>
      have hlast : ws.getLast? = some .cmd → it.isBareCmd (cleaned (cleaned t)) = false := by
        intro hcmd
        rw [h.cleaned_cleaned]
        refine hbare ?_
        rw [List.getLast?_cons, hcmd]
        rfl
      have hnested : w = .cmd → it.isBareCmd (cleaned (wrap ws t)) = false := by
        rintro rfl
        rw [cleaned_wrap ws h]
        cases ws with
        | nil => exact hbare rfl
        | cons w' ws =>
            rw [wrap_cons]
            exact isBareCmd_append hit w' (worded_wrap ws h.worded_cleaned)
      obtain ⟨es, rs, hentries, htexts, hnames, hrest⟩ := ih h.worded_cleaned hlast
      have hworded := worded_wrap ws h
      refine ⟨it.entry (Command.ofTokens (cleanTokens (w.opening ++ wrap ws t))) 0 :: es, rs,
        ?_, ?_, ?_, ?_⟩
      · rw [wrap_cons, List.length_cons, ← Nat.add_assoc,
          entries_succ hit (w.worded_append hworded), nestedLine?_append hit w hworded hnested,
          cleaned_wrap ws h, List.cons_append, ← hentries]
      · rw [List.map_cons, htexts, text_entry, h.cleaned_cleaned, layers]
        refine congrArg (· :: _) ?_
        show cleaned _ = _
        rw [← wrap_cons, cleaned_wrap _ h]
      · rw [List.map_cons, List.map_cons, hnames, name_entry_append hit w hworded]
      · rw [hrest, texts_entries_cleaned hit h]

/-- What is noted does not depend on the limit that is reported. -/
theorem entries_withLimit (it : Interpreter) (d left : Nat) (t : Text) :
    (it.withLimit d).entries left t = it.entries left t := by
  induction left generalizing t with
  | zero => rfl
  | succ left ih =>
      have hbelow : (it.withLimit d).entries left = it.entries left := funext ih
      rw [entries, unroll]
      show (it.plainCommands t).flatMap
        (it.noted (fun c => [it.entry c 0]) ((it.withLimit d).entries left)) = _
      rw [hbelow]
      rfl

end Interpreter

/-- A printable ASCII character that has no meaning of its own and refers to no variable. -/
def isInnocuous (c : Char) : Bool :=
  isCalm c && c ≠ '%' && c ≠ '!'

theorem worded_of_innocuous {x : Text} (hx : ∀ c ∈ x, isInnocuous c = true)
    (hletter : ∃ c ∈ x.head?, c.isAlpha = true) : Worded x ∧ Unreferenced x := by
  have hparts : ∀ c ∈ x, (isCalm c = true ∧ c ≠ '%') ∧ c ≠ '!' := by
    intro c hc
    simpa [isInnocuous] using hx c hc
  obtain ⟨c, hc, halpha⟩ := hletter
  exact ⟨⟨fun d hd => (hparts d hd).1.1, c, hc, by simp [Char.isAlphanum, halpha]⟩,
    fun hmem => (hparts _ hmem).1.2 rfl, fun hmem => (hparts _ hmem).2 rfl⟩

theorem unreferenced_wrap (ws : List Wrapper) {x : Text} (h : Unreferenced x) :
    Unreferenced (wrap ws x) := by
  induction ws with
  | nil => exact h
  | cons w ws ih =>
      rw [wrap_cons]
      have hopening : Unreferenced w.opening := by
        cases w <;> exact ⟨by decide, by decide⟩
      exact ⟨by simp [hopening.1, ih.1], by simp [hopening.2, ih.2]⟩

/-- The records of a run with the default options and a limit. -/
theorem exists_entries_interpret {d : Nat} (hd : d ≠ 0) (ht : Unreferenced t) :
    ∃ r, interpret { maxDepth := d } t = .ok r ∧
      r.records.map Record.unnumbered = (Interpreter.builtin {}).entries d t := by
  refine ⟨_, interpret_eq_ok hd t, ?_⟩
  rw [Interpreter.entries_interpret _ (by rwa [Interpreter.options_builtin]) ht,
    Interpreter.options_builtin, Interpreter.builtin_withLimit {} d]
  exact Interpreter.entries_withLimit _ d d t

/--
**Wrappers peel off cleanly.**  A command without special characters, wrapped in any number of
`cmd /c` and `call`, makes one record for each wrapper and then the records that it makes on
its own, with as many levels left as on its own.  Only `cmd` right around it may not find that
what is recorded of it is `cmd` itself.
-/
theorem interpret_wrapped (ws : List Wrapper) (x : Text) (m : Nat) (hm : 1 ≤ m)
    (hx : ∀ c ∈ x, isInnocuous c = true) (hletter : ∃ c ∈ x.head?, c.isAlpha = true)
    (hbare : ws.getLast? = some .cmd →
      (Interpreter.builtin {}).isBareCmd (cleaned x) = false) :
    ∃ r r', interpret { maxDepth := m + ws.length } (wrap ws x) = .ok r ∧
      interpret { maxDepth := m } x = .ok r' ∧
      r.commands = layers ws (cleaned x) ++ r'.commands ∧
      (layers ws (cleaned x)).length = ws.length ∧
      r.names.take ws.length = ws.map Wrapper.name := by
  obtain ⟨left, rfl⟩ := Nat.exists_eq_succ_of_ne_zero (Nat.ne_of_gt hm)
  obtain ⟨hworded, hplain⟩ := worded_of_innocuous hx hletter
  have hit : (Interpreter.builtin {}).Usual := Interpreter.usual_builtin rfl rfl
  obtain ⟨r, hr, hrecords⟩ :=
    exists_entries_interpret (d := left + 1 + ws.length) (by omega) (unreferenced_wrap ws hplain)
  obtain ⟨r', hr', hrecords'⟩ := exists_entries_interpret (Nat.succ_ne_zero left) hplain
  obtain ⟨es, rs, hentries, htexts, hnames, hrest⟩ :=
    Interpreter.exists_entries_wrap hit ws hworded left hbare
  have hlength : es.length = ws.length := by
    rw [← List.length_map (f := (·.name)), hnames, List.length_map]
  refine ⟨r, r', hr, hr', ?_, ?_, ?_⟩
  · rw [Interpretation.commands_eq, hrecords, hentries, List.map_append, htexts, hrest, ← hrecords',
      ← Interpretation.commands_eq]
  · rw [← htexts, List.length_map, hlength]
  · rw [Interpretation.names_eq, hrecords, hentries, List.map_append, hnames,
      List.take_append_of_le_length (by simp), List.take_of_length_le (by simp)]

/-- The command in the wrappers is a wrapper itself, with an assignment in it. -/
theorem interpret_wrapped_assignment :
    let ws : List Wrapper := [.cmd, .call, .cmd]
    let x := "call  set,n = v ".toList
    ((∀ c ∈ x, isInnocuous c = true) ∧ (∃ c ∈ x.head?, c.isAlpha = true) ∧
      (Interpreter.builtin {}).isBareCmd (cleaned x) = false) ∧
    ∃ r r', interpret { maxDepth := 5 } (wrap ws x) = .ok r ∧
      interpret { maxDepth := 2 } x = .ok r' ∧
      r.commands = ["cmd /c call cmd /c call set,n = v".toList, "call cmd /c call set,n = v".toList,
        "cmd /c call set,n = v".toList] ++ r'.commands ∧
      r.names.take 3 = ["cmd".toList, "call".toList, "cmd".toList] := by
  intro ws x
  have hx : ∀ c ∈ x, isInnocuous c = true := List.all_eq_true.mp (by decide)
  have hletter : ∃ c ∈ x.head?, c.isAlpha = true := ⟨'c', rfl, rfl⟩
  have hcleaned : cleaned x = "call set,n = v".toList := by decide +kernel
  have hbare : (Interpreter.builtin {}).isBareCmd (cleaned x) = false := by
    rw [hcleaned]
    decide +kernel
  obtain ⟨r, r', hr, hr', hcommands, -, hnames⟩ :=
    interpret_wrapped ws x 2 (by decide) hx hletter fun _ => hbare
  rw [hcleaned] at hcommands
  exact ⟨⟨hx, hletter, hbare⟩, r, r', hr, hr', hcommands, hnames⟩

/-- It is not enough that the command itself is not `cmd`: without the blank at its end this one
looks like a path, and `cmd` does not run it. -/
theorem interpret_wrapped_blank :
    let x := "a==set=/cmd ".toList
    ((∀ c ∈ x, isInnocuous c = true) ∧ (∃ c ∈ x.head?, c.isAlpha = true) ∧
      (Interpreter.builtin {}).isBareCmd x = false) ∧
    ∃ r r', interpret { maxDepth := 2 } (wrap [.cmd] x) = .ok r ∧
      interpret { maxDepth := 1 } x = .ok r' ∧ r.commands.length = 1 ∧ r'.commands.length = 1 := by
  intro x
  have hlength : ∀ {d : Nat} {t : Text} {n : Nat}, (interpret { maxDepth := d } t).toOption.map
      (fun r => (r.frames.flatMap (·.commands)).length) = some n →
      ∃ r, interpret { maxDepth := d } t = .ok r ∧ r.commands.length = n := by
    intro d t n h
    cases hr : interpret { maxDepth := d } t with
    | error e => simp [hr, Except.toOption] at h
    | ok r =>
        refine ⟨r, rfl, ?_⟩
        rw [Interpretation.commands, List.length_map, Interpretation.records, List.length_mergeSort]
        simpa [hr, Except.toOption] using h
  obtain ⟨r, hr, hcount⟩ := hlength (d := 2) (t := wrap [.cmd] x) (n := 1) (by decide +kernel)
  obtain ⟨r', hr', hcount'⟩ := hlength (d := 1) (t := x) (n := 1) (by decide +kernel)
  exact ⟨⟨List.all_eq_true.mp (by decide), ⟨'a', rfl, rfl⟩, by decide +kernel⟩, r, r', hr, hr',
    hcount, hcount'⟩

end BatchTrace
