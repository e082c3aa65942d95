/-
Commands without special characters.

A text without special characters that begins with a letter or a digit is one command.  Its
text as it is recorded is such a text again, and recording it a second time changes nothing.

Read once more, the recorded text need not name the same program: blanks at the end of an
assignment are lost, and a head that is all assignment can look like a path without them.
But such a head leaves no arguments, and where there are arguments the head has ended
before.  So the line that the command runs below itself is the same.
-/
import BatchTrace.Proofs.Program.Heads
import BatchTrace.Proofs.Token.CalmCleaning
import BatchTrace.Proofs.Trace.Sequence

namespace BatchTrace

open Lexeme

variable {t : Text}

/-- The tokens of a text that is one command, cleaned. -/
def cleanTokens (t : Text) : List Token :=
  Block.peel (Cleaning.standard.apply (Token.tokenize t))

/-- The text of such a command as it is recorded. -/
def cleaned (t : Text) : Text :=
  Text.trim (Token.stringify (cleanTokens t))

/-- A text without special characters that begins with a letter or a digit. -/
structure Worded (t : Text) : Prop where
  calm : Calm t
  first : ∃ c ∈ t.head?, c.isAlphanum = true

/-! ### The recorded text -/

theorem cleaned_subset (t : Text) : cleaned t ⊆ ' ' :: t := by
  refine List.Subset.trans (Text.trim_subset _) ?_
  refine Token.stringify_subset_of_subset ?_ (Block.peel_subset _)
  refine Token.stringify_apply_subset (by simp) _ ?_
  rw [Token.stringify_tokenize]
  exact List.subset_cons_self ' ' t

namespace Worded

theorem ordinary (h : Worded t) : ∀ c ∈ t.head?, Chunk.isOrdinary c = true := by
  obtain ⟨c, hc, halpha⟩ := h.first
  intro d hd
  rw [Option.mem_unique hd hc]
  exact isOrdinary_of_isAlphanum halpha

theorem map_lexeme (h : Worded t) : (cleanTokens t).map Token.lexeme = tidy (Lexer.lexemes t) :=
  h.calm.lexemes_cleaned h.ordinary

theorem exists_reread (h : Worded t) : ∃ us ws ws', Reread t (Lexer.lexemes t) us ws ws' :=
  h.calm.calmly.reread h.calm

theorem cleaned_eq (h : Worded t) : cleaned t = Text.trimEnd (spell (tidy (Lexer.lexemes t))) := by
  obtain ⟨us, ws, ws', hr⟩ := h.exists_reread
  obtain ⟨c, hc, halpha⟩ := h.first
  have hhead : c ∈ (spell (tidy (Lexer.lexemes t))).head? := by
    refine Text.mem_head?_of_trimEnd ?_
    rwa [hr.tidied, ← hr.trimmed, hr.ordinary h.ordinary]
  rw [cleaned, ← Token.spell_map_lexeme, h.map_lexeme, Text.trim, Text.trimStart_of_head?]
  intro d hd
  rw [Option.mem_unique hd hhead]
  exact isBlank_of_isAlphanum halpha

/-- The recorded text is a command of the same form. -/
theorem worded_cleaned (h : Worded t) : Worded (cleaned t) where
  calm := by
    intro c hc
    rcases List.mem_cons.mp (cleaned_subset t hc) with rfl | hc
    · rfl
    · exact h.calm c hc
  first := by
    obtain ⟨us, ws, ws', hr⟩ := h.exists_reread
    rw [h.cleaned_eq, hr.tidied, ← hr.trimmed, hr.ordinary h.ordinary]
    exact h.first

/-- What a command and its recorded text are read as. -/
theorem exists_shortened (h : Worded t) :
    ∃ us ws ws', Shortened us ws ws' ∧ (cleanTokens t).map Token.lexeme = us ++ ws ∧
      (cleanTokens (cleaned t)).map Token.lexeme = us ++ ws' ∧ cleaned t = spell (us ++ ws') := by
  obtain ⟨us, ws, ws', hr⟩ := h.exists_reread
  have hcleaned : cleaned t = spell (us ++ ws') := by rw [h.cleaned_eq, hr.tidied, hr.trimmed]
  have hlexemes : Lexer.lexemes (cleaned t) = us ++ ws' := by
    have hcalm := h.worded_cleaned.calm
    rw [hcleaned] at hcalm ⊢
    exact hr.calmly.lexemes_eq hcalm
  have hsqueezed : us.map squeeze = us := by
    exact (List.map_congr_left hr.squeezed).trans (List.map_id us)
  refine ⟨us, ws, ws', hr.toShortened, by rw [h.map_lexeme, hr.tidied], ?_, hcleaned⟩
  rw [h.worded_cleaned.map_lexeme, hlexemes]
  by_cases hnil : ws' = []
  · have hws : ws = [] := hr.nil_iff.mpr hnil
    have hus : tidy (Lexer.lexemes t) = us := by rw [hr.tidied, hws, List.append_nil]
    rw [hnil, List.append_nil, tidy, hsqueezed, ← hus, tidy, List.rdropWhile_idempotent]
  · rw [tidy_append hr.assigned' hnil, hsqueezed]

theorem cleaned_cleaned (h : Worded t) : cleaned (cleaned t) = cleaned t := by
  obtain ⟨us, ws, ws', -, -, hread, hspell⟩ := h.exists_shortened
  rw [h.worded_cleaned.cleaned_eq, ← h.worded_cleaned.map_lexeme, hread, ← hspell, h.cleaned_eq,
    Text.trimEnd_trimEnd]

/-- A text that cleaning finds nothing in is recorded as it stands. -/
theorem cleaned_of_tidy (h : Worded t) (htidy : tidy (Lexer.lexemes t) = Lexer.lexemes t)
    (hlast : ∀ c ∈ t.getLast?, Text.isBlank c = false) : cleaned t = t := by
  rw [h.cleaned_eq, htidy, (Lexer.covers_lexemes t).spelled, Text.trimEnd_of_last hlast]

theorem cleaned_ne_nil (h : Worded t) : cleaned t ≠ [] := by
  obtain ⟨c, hc, -⟩ := h.worded_cleaned.first
  intro hnil
  rw [hnil] at hc
  exact absurd hc (by simp)

end Worded

/-! ### The command -/

theorem Kind.isLoose_of_isCalm {k : Kind} (h : k.isCalm = true) : k.isLoose = true := by
  cases k <;> first | rfl | exact absurd h (by decide)

namespace Worded

theorem isCalm_kind_tokenize (h : Worded t) : ∀ u ∈ Token.tokenize t, u.kind.isCalm = true := by
  intro u hu
  refine h.calm.calmly.isCalm_kind u.lexeme ?_
  rw [← Token.map_lexeme_tokenize]
  exact List.mem_map_of_mem hu

theorem isCalm_kind (h : Worded t) : ∀ u ∈ cleanTokens t, u.kind.isCalm = true := by
  intro u hu
  have hmem : u.lexeme ∈ tidy (Lexer.lexemes t) := by
    rw [← h.map_lexeme]
    exact List.mem_map_of_mem hu
  obtain ⟨x, hx, hsqueeze⟩ := List.mem_map.mp ((List.rdropWhile_prefix _ _).subset hmem)
  have hkind := h.calm.calmly.isCalm_kind x hx
  rwa [← kind_squeeze, hsqueeze] at hkind

/-- The text begins with a word, as what is left of it does. -/
theorem exists_lexemes_eq (h : Worded t) :
    ∃ run xs, Lexer.lexemes t = ⟨(Chunk.word run).kind, run⟩ :: xs ∧
      tidy (Lexer.lexemes t) = ⟨(Chunk.word run).kind, run⟩ :: tidy xs ∧
      ∃ c ∈ run.head?, c.isAlphanum = true := by
  rcases h.calm.calmly.exists_word_head? h.ordinary with hnil | ⟨run, xs, hcons, hhead⟩
  · have hcovers := (Lexer.covers_lexemes t).spelled
    obtain ⟨c, hc, -⟩ := h.first
    rw [hnil] at hcovers
    rw [← hcovers] at hc
    exact absurd hc (by simp)
  · have hdelimiter := Chunk.kind_word_ne_delimiter run
    refine ⟨run, xs, hcons, ?_, by rw [hhead]; exact h.first⟩
    rw [hcons, tidy_cons, if_neg (fun hboth => hdelimiter hboth.2), squeeze_of_ne hdelimiter]

/-- The whole text is one block. -/
theorem blocks_eq (h : Worded t) : Block.ofTokens (Token.tokenize t) = [Token.tokenize t] := by
  refine Block.ofTokens_of_unchained ?_ ?_
  · intro u hu
    have hloose := Kind.isLoose_of_isCalm (h.isCalm_kind_tokenize u hu)
    exact (Kind.isLoose_iff.mp hloose).2.2.2
  · obtain ⟨run, xs, hcons, -, -⟩ := h.exists_lexemes_eq
    rw [← Token.map_lexeme_tokenize] at hcons
    obtain ⟨u, us, htokens, hu, -⟩ := List.map_eq_cons_iff.mp hcons
    refine ⟨u, by simp [htokens], ?_⟩
    rw [show u.kind = (Chunk.word run).kind from (Lexeme.mk.inj hu).1]
    exact Chunk.kind_word_ne_delimiter run

/-- The block is a command. -/
theorem ofBlock?_eq (h : Worded t) : Command.ofBlock? .standard (Token.tokenize t) =
    some (Command.ofTokens (cleanTokens t)) := by
  rw [Command.ofBlock?_eq, if_neg]
  · rfl
  · rw [List.isEmpty_iff]
    exact h.cleaned_ne_nil

theorem plainCommands_eq (h : Worded t) {it : Interpreter}
    (hcleaning : it.options.cleaning = .standard) :
    it.plainCommands t = [Command.ofTokens (cleanTokens t)] := by
  rw [Interpreter.plainCommands, h.blocks_eq, hcleaning]
  simp [h.ofBlock?_eq]

end Worded

/-! ### The line below the command -/

/-- An interpreter with the handlers and the cleaning that there are unless something else is asked
for. -/
structure Interpreter.Usual (it : Interpreter) : Prop where
  cleaning : it.options.cleaning = .standard
  cmd : it.handler "cmd".toList = .cmd
  call : it.handler "call".toList = .call
  set : it.handler "set".toList = .set

theorem Interpreter.usual_builtin {options : Options} (hcleaning : options.cleaning = .standard)
    (hpass : options.passthrough = []) : (builtin options).Usual := by
  refine ⟨by rw [options_builtin, hcleaning], ?_, ?_, ?_⟩
  · rw [handler, handlers_builtin hpass]
    rfl
  · rw [handler, handlers_builtin hpass]
    rfl
  · rw [handler, handlers_builtin hpass]
    rfl

/-- What stands after the switches is not looked at. -/
theorem CmdArguments.exists_body_append (table : Switches) (ts : List Token) :
    ∃ p, ∀ ws : List Token, (∀ w ∈ ws.head?, w.kind.isAssigned = true) →
      (ofTokensFrom table (ts ++ ws)).body = p ++ Token.stringify ws := by
  induction ts generalizing table with
  | nil =>
      refine ⟨[], fun ws hws => ?_⟩
      cases ws with
      | nil => rfl
      | cons w ws =>
          have hw := hws w rfl
          rw [List.nil_append, ofTokensFrom]
          split
          · rename_i hkind
            rw [hkind] at hw
            exact absurd hw (by decide)
          · rename_i hkind
            rw [hkind] at hw
            exact absurd hw (by decide)
          · rfl
  | cons t ts ih =>
      by_cases hdelimiter : t.kind = .delimiter
      · obtain ⟨p, hp⟩ := ih table
        refine ⟨p, fun ws hws => ?_⟩
        rw [List.cons_append, ofTokensFrom]
        simp only [hdelimiter]
        exact hp ws hws
      · by_cases hliteral : t.kind = .literal
        · cases hread : WrittenSwitch.readWord? t.text with
          | none =>
              refine ⟨Token.stringify (t :: ts), fun ws _ => ?_⟩
              rw [List.cons_append, ofTokensFrom]
              simp [hliteral, hread]
          | some parts =>
              obtain ⟨switches, glued⟩ := parts
              cases glued with
              | nil =>
                  obtain ⟨p, hp⟩ := ih (switches.foldl WrittenSwitch.enter table)
                  refine ⟨p, fun ws hws => ?_⟩
                  rw [List.cons_append, ofTokensFrom]
                  simp only [hliteral, hread]
                  exact hp ws hws
              | cons c glued =>
                  refine ⟨c :: glued ++ Token.stringify ts, fun ws _ => ?_⟩
                  rw [List.cons_append, ofTokensFrom]
                  simp [hliteral, hread]
        · refine ⟨Token.stringify (t :: ts), fun ws _ => ?_⟩
          rw [List.cons_append, ofTokensFrom]
          split
          · rename_i hkind
            exact absurd hkind hdelimiter
          · rename_i hkind
            exact absurd hkind hliteral
          · simp

/-- Where the characters that pass a test end does not depend on what comes later. -/
theorem takeWhile_dropWhile_append {α : Type} {p : α → Bool} {l post : List α} {d : α}
    (h : l.dropWhile p = d :: post) (ws : List α) :
    (l ++ ws).takeWhile p = l.takeWhile p ∧ (l ++ ws).dropWhile p = d :: (post ++ ws) := by
  have hhead : d ∈ (l.dropWhile p).head? := by rw [h]; rfl
  have hd : p d = false := not_of_mem_head?_dropWhile hhead
  have hbefore : ∀ x ∈ l.takeWhile p, p x = true := fun x hx => List.mem_takeWhile_imp hx
  have hsplit : l ++ ws = l.takeWhile p ++ (d :: (post ++ ws)) := by
    rw [← List.cons_append, ← h, ← List.append_assoc, List.takeWhile_append_dropWhile]
  rw [hsplit]
  exact ⟨takeWhile_run hbefore (by simpa using hd), dropWhile_run hbefore (by simpa using hd)⟩

namespace Interpreter

variable {it : Interpreter}

/-- Without arguments nothing runs below a command. -/
theorem nestedLine?_of_bare {c : Command} (h : c.arguments = []) : it.nestedLine? c = none := by
  have hline : c.line = [] := by rw [Command.line, h]; rfl
  have hbody : c.body = [] := by rw [Command.body, h]; rfl
  rw [nestedLine?, hline, hbody]
  cases it.handler c.program.name <;> rfl

theorem nestedLine?_congr {c d : Command} (hname : c.program.name = d.program.name)
    (hbody : c.body = d.body) (hline : c.line = d.line) : it.nestedLine? c = it.nestedLine? d := by
  rw [nestedLine?, nestedLine?, hname, hbody, hline]

/-- Nothing runs below `set`. -/
theorem nestedLine?_set (hit : it.Usual) {u : Token} (hset : u.kind = .setWord) (ts : List Token) :
    it.nestedLine? (Command.ofTokens (u :: ts)) = none := by
  have hname : (Program.identify (u :: ts)).name = "set".toList :=
    Program.name_identify_set hset
  rw [nestedLine?, Command.ofTokens, hname, hit.set]

/-- Without a separator all of it is the head, and there are no arguments. -/
theorem nestedLine?_unseparated {u : Token} {ts : List Token}
    (hloose : ∀ v ∈ u :: ts, v.kind.isLoose = true) (hu : u.kind ≠ .delimiter)
    (hset : u.kind ≠ .setWord) (hts : ∀ v ∈ ts, v.kind ≠ .delimiter) :
    it.nestedLine? (Command.ofTokens (u :: ts)) = none := by
  have hdrop : ts.dropWhile (·.kind ≠ .delimiter) = [] := by
    rw [List.dropWhile_eq_nil_iff]
    intro v hv
    simpa using hts v hv
  refine nestedLine?_of_bare ((Program.identify_loose hloose hu hset).arguments.trans ?_)
  rw [hdrop]
  rfl

/-- Blanks at the end of an assignment do not change what runs below a command. -/
theorem nestedLine?_shortened (hit : it.Usual) {u : Token} {us ws ws' : List Token}
    (hcalm : ∀ v ∈ u :: us, v.kind.isCalm = true) (hu : u.kind ≠ .delimiter)
    (hws : ∀ w ∈ ws, w.kind.isAssigned = true) (hws' : ∀ w ∈ ws', w.kind.isAssigned = true)
    (hspell : Token.stringify ws' = Text.trimEnd (Token.stringify ws)) :
    it.nestedLine? (Command.ofTokens (u :: (us ++ ws))) =
      it.nestedLine? (Command.ofTokens (u :: (us ++ ws'))) := by
  have hloose : ∀ {ws : List Token}, (∀ w ∈ ws, w.kind.isAssigned = true) →
      ∀ v ∈ u :: (us ++ ws), v.kind.isLoose = true := by
    intro ws hws v hv
    rcases List.mem_cons.mp hv with rfl | hv
    · exact Kind.isLoose_of_isCalm (hcalm _ (by simp))
    · rcases List.mem_append.mp hv with hv | hv
      · exact Kind.isLoose_of_isCalm (hcalm v (by simp [hv]))
      · exact Kind.isLoose_of_isCalm (Kind.isCalm_of_isAssigned (hws v hv))
  by_cases hset : u.kind = .setWord
  · rw [nestedLine?_set hit hset, nestedLine?_set hit hset]
  have hhead := Program.identify_loose (hloose hws) hu hset
  have hhead' := Program.identify_loose (hloose hws') hu hset
  cases hafter : us.dropWhile (·.kind ≠ .delimiter) with
  | nil =>
      have hbare : ∀ {ws : List Token}, (∀ w ∈ ws, w.kind.isAssigned = true) →
          ∀ v ∈ us ++ ws, v.kind ≠ .delimiter := by
        intro ws hws v hv
        rcases List.mem_append.mp hv with hv | hv
        · simpa using List.dropWhile_eq_nil_iff.mp hafter v hv
        · exact Kind.ne_of_isAssigned (hws v hv) rfl
      rw [nestedLine?_unseparated (hloose hws) hu hset (hbare hws),
        nestedLine?_unseparated (hloose hws') hu hset (hbare hws')]
  | cons d post =>
      -- The head ends at `d`, and everything else is the arguments.
      have htake : ∀ ws : List Token, (us ++ ws).takeWhile (·.kind ≠ .delimiter) =
          us.takeWhile (·.kind ≠ .delimiter) := fun ws => (takeWhile_dropWhile_append hafter ws).1
      have hdrop : ∀ ws : List Token, (us ++ ws).dropWhile (·.kind ≠ .delimiter) =
          d :: (post ++ ws) := fun ws => (takeWhile_dropWhile_append hafter ws).2
      have harguments : (Command.ofTokens (u :: (us ++ ws))).arguments = post ++ ws :=
        hhead.arguments.trans (by rw [hdrop]; rfl)
      have harguments' : (Command.ofTokens (u :: (us ++ ws'))).arguments = post ++ ws' :=
        hhead'.arguments.trans (by rw [hdrop]; rfl)
      refine nestedLine?_congr ?_ ?_ ?_
      · show (Program.identify _).name = (Program.identify _).name
        rw [hhead.name, hhead'.name, htake, htake]
      · obtain ⟨p, hp⟩ := CmdArguments.exists_body_append [] post
        rw [Command.body, Command.body, harguments, harguments', CmdArguments.ofTokens,
          CmdArguments.ofTokens, hp ws fun w hw => hws w (List.mem_of_mem_head? hw),
          hp ws' fun w hw => hws' w (List.mem_of_mem_head? hw), hspell, Text.trim_append_trimEnd]
      · rw [Command.line, Command.line, harguments, harguments', Token.stringify_append,
          Token.stringify_append, hspell, Text.trim_append_trimEnd]

/-- **The recorded text of a command runs the same line below itself.** -/
theorem nestedLine?_cleaned (hit : it.Usual) (h : Worded t) :
    it.nestedLine? (Command.ofTokens (cleanTokens (cleaned t))) =
      it.nestedLine? (Command.ofTokens (cleanTokens t)) := by
  obtain ⟨us, ws, ws', hshort, hread, hread', -⟩ := h.exists_shortened
  obtain ⟨us₁, ws₁, htokens, rfl, rfl⟩ := List.map_eq_append_iff.mp hread
  obtain ⟨us₂, ws₂, htokens', hus, rfl⟩ := List.map_eq_append_iff.mp hread'
  have hassigned : ∀ w ∈ ws₁, w.kind.isAssigned = true := fun w hw =>
    hshort.assigned w.lexeme (List.mem_map_of_mem hw)
  have hassigned' : ∀ w ∈ ws₂, w.kind.isAssigned = true := fun w hw =>
    hshort.assigned' w.lexeme (List.mem_map_of_mem hw)
  have halike : Token.AllAlike (us₂ ++ ws₂) (us₁ ++ ws₂) :=
    Token.allAlike_of_map_lexeme (by rw [List.map_append, List.map_append, hus])
  obtain ⟨run, xs, -, htidy, -⟩ := h.exists_lexemes_eq
  rw [← h.map_lexeme, hread] at htidy
  have hcalm := h.isCalm_kind
  have hfirst := Chunk.forall_kind_word (p := fun k => !k.isAssigned) (by decide) run
  rw [htokens', htokens, it.nestedLine?_alike (Command.ofTokens_alike halike)]
  rw [htokens] at hcalm
  cases us₁ with
  | nil =>
      -- The first token is a word, so it does not belong to an assignment.
      obtain ⟨w, rest, rfl, hw, -⟩ := List.map_eq_cons_iff.mp htidy
      have hkind := hassigned w (by simp)
      rw [show w.kind = (Chunk.word run).kind from congrArg Lexeme.kind hw] at hkind
      simp [hkind] at hfirst
  | cons u us =>
      have hu : u.kind = (Chunk.word run).kind := congrArg Lexeme.kind (List.cons.inj htidy).1
      refine (nestedLine?_shortened hit (fun v hv => hcalm v ?_) ?_ hassigned hassigned' ?_).symm
      · simp only [List.mem_append]
        exact .inl hv
      · rw [hu]
        exact Chunk.kind_word_ne_delimiter run
      · rw [← Token.spell_map_lexeme, ← Token.spell_map_lexeme]
        exact hshort.spelled

end Interpreter

end BatchTrace
