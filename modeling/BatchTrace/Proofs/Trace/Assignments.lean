/-
What `SET` stores.

A line that is a single `SET` is read, cleaned and peeled before its arguments are looked at.  In
between nothing happens to a name and a value, so that they are stored as they were written:
without quotes a value may hold anything but operators, carets, quotes and references and must
not end in a blank, which would be trimmed; between quotes it may hold anything but quotes and
references.
-/
import BatchTrace.Proofs.Program.SetCommand
import BatchTrace.Proofs.Trace.Visibility

namespace BatchTrace

open Reading

variable {t u : Text}

/-! ### A line with one assignment -/

/-- A line with one command, which is `set` when it has been cleaned, the tokens `ts` after the word
and in them the separators `g` and the text `u` after a space. -/
structure IsSetLine (t : Text) (ts : List Token) (g u : Text) : Prop where
  blocks : Block.ofTokens (Token.tokenize t) = [Token.tokenize t]
  cleaned : ∃ w : Token, w.IsSet ∧ Cleaning.standard.apply (Token.tokenize t) = w :: ts
  arguments : Token.Arguments ts g u

/-- The table with the variable that `line` assigns, if it assigns one. -/
def assignedBy (line : Text) : Variables :=
  match Assignment.parse? (Text.trim line) with
  | some (name, value) => ⟨[⟨name, value⟩]⟩
  | none => .empty

/-- What a line leaves that does no more than assign what the tokens after the first of `ts` say. -/
def afterSet (ts : List Token) : Interpretation where
  frames := [{ assigned := assignedBy (Token.stringify ts.tail)
               commands := [⟨"set".toList, Text.trim (Token.stringify ts.tail), [],
                 Text.trim ("set".toList ++ Token.stringify ts), 0⟩] }]
  cutOffs := []

theorem runSet_root {c : Command} {ts : List Token} (h : c.Sets ts) :
    (Interpreter.runSet 0 c ((Interpreter.builtin {}).withRoot .empty)).finish = afterSet ts := by
  rw [Interpreter.runSet, h.arguments, h.text, afterSet, assignedBy]
  cases Assignment.parse? (Text.trim (Token.stringify ts.tail)) with
  | none => rfl
  | some parts => rfl

theorem trim_set_ne_nil (u : Text) : Text.trim ("set".toList ++ u) ≠ [] := by
  have hhead : ∀ c ∈ ("set".toList ++ u).head?, Text.isBlank c = false := by
    rintro c hc
    obtain rfl : 's' = c := Option.some.inj hc
    rfl
  intro hnil
  have hsame := Text.head?_trimEnd hhead
  rw [Text.trim, Text.trimStart_of_head? hhead] at hnil
  rw [hnil] at hsame
  cases hsame

namespace IsSetLine

variable {ts : List Token} {g : Text}

theorem exists_command (h : IsSetLine t ts g u) :
    ∃ c, Command.ofBlock? .standard (Token.tokenize t) = some c ∧
      c.Sets (Token.dropSeparators ts) := by
  obtain ⟨w, hw, happly⟩ := h.cleaned
  have hsets := Command.sets_peel hw h.arguments.isDelimiter_head?
  refine ⟨_, ?_, hsets⟩
  rw [Command.ofBlock?_eq, happly, if_neg]
  rw [hsets.text, List.isEmpty_iff]
  exact trim_set_ne_nil _

/-- **A line with one assignment opens one frame and stores what it assigns there.** -/
theorem interpret_eq (h : IsSetLine t ts g u) (ht : Unreferenced t) :
    interpret {} t = .ok (afterSet (Token.dropSeparators ts)) := by
  obtain ⟨c, hcommand, hc⟩ := h.exists_command
  let it := Interpreter.builtin {}
  have hblocks : Block.ofTokens (Token.tokenize (it.expandLine .empty none t)) =
      [Token.tokenize t] := by
    rw [Interpreter.expandLine_of_unreferenced ht, h.blocks]
  have hblock : it.delayedBlock ((it.withRoot .empty).frame 0) (Token.tokenize t) =
      Token.tokenize t :=
    Interpreter.delayedBlock_of_settled
      (Interpreter.settled_of_mem ht (by rw [h.blocks]; exact List.mem_singleton_self _)) _
  have hit : it.Usual := Interpreter.usual_builtin rfl rfl
  have hhandler : it.handler c.program.name = .set := by
    rw [hc.name]
    exact hit.set
  have hrun : it.run t = Interpreter.runSet 0 c (it.withRoot .empty) := by
    show it.runLine (31 + 1) t none .empty = _
    rw [it.runLine_succ_none 31 t .empty hblocks, List.foldl_cons, List.foldl_nil,
      Interpreter.runBlock, hblock, hit.cleaning, hcommand]
    show it.runCommand (it.below 31) 0 c (it.withRoot .empty) = _
    rw [Interpreter.runCommand, hhandler]
  rw [interpret_eq_ok (by decide), Interpreter.interpret]
  show Except.ok (it.run t).finish = _
  rw [hrun, runSet_root hc]

theorem separatorsAtEnd_apply (h : IsSetLine t ts g u) :
    Token.separatorsAtEnd (Cleaning.standard.apply (Token.tokenize t)) =
      Token.separatorsAtEnd ts := by
  obtain ⟨w, hw, happly⟩ := h.cleaned
  rw [happly, Token.separatorsAtEnd_cons hw.ne_delimiter]

end IsSetLine

/-! ### Arguments that are kept -/

namespace Lexer

open Lexeme

/-- Separators without an equals sign do not begin a value. -/
theorem step_lead_delimiter {run : Text} (hrun : '=' ∉ run) (rest : Text) :
    step .lead (.delimiter run) rest = ⟨[⟨.delimiter, run⟩], .lead, rest⟩ := by
  have hnone : Text.splitFirst (· = '=') run = none := by
    rw [Text.splitFirst_eq_none_iff]
    intro c hc
    simpa using fun heq : c = '=' => hrun (heq ▸ hc)
  show assign .delimiter .lead run rest = _
  rw [assign, hnone]

theorem lexemes_set {g : Text} (hg : ∀ c ∈ g, Chunk.isDelimiter c = true) (hequals : '=' ∉ g)
    (hu : ∀ c ∈ u.head?, Chunk.isDelimiter c = false) :
    lexemes ("set ".toList ++ (g ++ u)) =
      ⟨.setWord, "set".toList⟩ :: ⟨.delimiter, ' ' :: g⟩ :: join (pieces .lead u) := by
  have hword : Chunk.next? ("set".toList ++ (' ' :: g ++ u)) =
      some (.word "set".toList, ' ' :: g ++ u) :=
    Chunk.next?_word_append (by decide) (List.all_eq_true.mp (by decide)) (by simp; decide)
      (by simp)
  have hspace : Chunk.next? (' ' :: g ++ u) = some (.delimiter (' ' :: g), u) :=
    Chunk.next?_delimiter_append (by simp) (List.forall_mem_cons.mpr ⟨rfl, hg⟩) hu
  have hpieces : pieces .command ("set".toList ++ (' ' :: g ++ u)) =
      ⟨.setWord, "set".toList⟩ :: ⟨.delimiter, ' ' :: g⟩ :: pieces .lead u := by
    rw [pieces_of_next? hword]
    show [_] ++ pieces .lead (' ' :: g ++ u) = _
    rw [pieces_of_next? hspace, step_lead_delimiter (by simpa using hequals)]
    rfl
  show join (pieces .command ("set".toList ++ (' ' :: g ++ u))) = _
  rw [hpieces, join_cons rfl, join_cons rfl]

end Lexer

/-- **Arguments that cleaning leaves alone are read as they are written.** -/
theorem Lexer.Verbatim.exists_isSetLine {g : Text} (h : Verbatim u)
    (hg : ∀ c ∈ g, Chunk.isDelimiter c = true) (hequals : '=' ∉ g)
    (hblank : isBlank (ofText .gap g) = true → g = []) :
    ∃ ts, IsSetLine ("set ".toList ++ (g ++ u)) ts g u ∧ (∀ t ∈ ts, t.Plain) ∧
      Token.reading ts =
        if g ++ u = [] then [] else ofText .gap (' ' :: g) ++ Lexer.reading .lead u := by
  have hlexemes := lexemes_set hg hequals h.head
  rw [← Token.map_lexeme_tokenize] at hlexemes
  obtain ⟨w, _, htokenize, hw, hlexemes⟩ := List.map_eq_cons_iff.mp hlexemes
  obtain ⟨d, ts, rfl, hd, hts⟩ := List.map_eq_cons_iff.mp hlexemes
  obtain ⟨hwkind, hwtext⟩ := Lexeme.mk.inj hw
  obtain ⟨hdkind, hdtext⟩ := Lexeme.mk.inj hd
  have hplain := Token.plain_of_map_lexeme hts h.plain
  have hread := Token.reading_of_map_lexeme hts
  have hempty : Token.Apart Kind.EmptyPair ts := by
    rw [← Token.filled_reading hplain.2, hread]
    exact h.clean.filled
  obtain ⟨hafter, hsettled⟩ := Token.reading_afterWord_cons hdkind (by simp [hdtext]) hplain
  have hgap : ∀ x ∈ ofText .gap (' ' :: g), isGap x = true :=
    fun x hx => by simp [isGap, role_of_mem_ofText hx]
  have hspelled : Token.reading (Token.afterWord (d :: ts)) =
      if g ++ u = [] then [] else ofText .gap (' ' :: g) ++ Lexer.reading .lead u := by
    rw [hsettled, Token.stripEmptyStrings_of_apart hempty, hread, hdtext]
    by_cases hwhite : isBlank (ofText .gap g) = true
    · rw [settle_blank_append (by simp) hgap hwhite h.first, h.clean.settled, hblank hwhite]
      simp [Lexer.reading_eq_nil]
    · have hne : g ++ u ≠ [] := by
        rintro hnil
        exact hwhite (by rw [(List.append_eq_nil_iff.mp hnil).1]; rfl)
      have hkept : ¬ isBlank (ofText .gap (' ' :: g)) = true := hwhite
      rw [settle_gap_append (by simp) hgap h.first, squeezeRun, if_neg hkept, h.clean.settled,
        if_neg hne]
  refine ⟨Token.afterWord (d :: ts), ⟨?_, ⟨w, ⟨Or.inl hwkind, hwtext⟩, ?_⟩, ?_⟩, hafter, hspelled⟩
  · refine Block.ofTokens_of_unchained ?_ ⟨w, by rw [htokenize]; simp, by simp [hwkind]⟩
    rw [htokenize, List.forall_mem_cons, List.forall_mem_cons, hwkind, hdkind]
    exact ⟨rfl, rfl, Token.isChain_of_map_lexeme hts h.unchained⟩
  · rw [htokenize, Token.apply_setWord hwkind]
  · have harguments := Token.arguments_of_reading (g := g) hafter (Token.apart_afterWord _) h.first
      (by rwa [text_reading])
    rwa [text_reading] at harguments

/-! ### Names and values -/

/-- After the line the outermost frame has assigned one variable and no other. -/
def Stores (t n v : Text) : Prop :=
  ∃ r, interpret {} t = .ok r ∧ r.frames.getLast?.map (·.assigned) = some ⟨[⟨n, v⟩]⟩

/-- Arguments that are kept are stored, if they do not end in separators. -/
theorem Lexer.Verbatim.stores (h : Verbatim u)
    (hlast : ∀ x ∈ (Lexer.reading .lead u).getLast?, isGap x = false)
    (ht : Unreferenced ("set ".toList ++ u)) {n v : Text}
    (hparse : Assignment.parse? (Text.trim u) = some (n, v)) :
    Stores ("set ".toList ++ u) n v := by
  obtain ⟨ts, hline, hplain, hread⟩ := h.exists_isSetLine (g := []) (by simp) (by simp) fun _ => rfl
  have hend : ∀ x ∈ (Token.reading ts).getLast?, isGap x = false := by
    rw [hread]
    split
    · simp
    · rename_i hne
      rwa [List.getLast?_append_of_ne_nil _ (mt Lexer.reading_eq_nil.mp (by simpa using hne))]
  refine ⟨_, hline.interpret_eq ht, ?_⟩
  simp [Token.dropSeparators_of_reading hplain hend, afterSet, assignedBy,
    hline.arguments.stringify_tail, hparse]

/-- What stands between quotes is assigned up to the last of them. -/
theorem parse?_quoted {n : Text} (hne : n ≠ []) (hn : '=' ∉ n) (v : Text) :
    Assignment.parse? ('"' :: (n ++ '=' :: v ++ ['"'])) = some (n, v) := by
  have hbody : Assignment.body ('"' :: (n ++ '=' :: v ++ ['"'])) = n ++ '=' :: v := by
    rw [Assignment.body, Text.splitLast_append (by simp) (by simp)]
  obtain ⟨c, more, rfl⟩ := List.exists_cons_of_ne_nil hne
  rw [Assignment.parse?, Text.trimStart_of_head? (by simp; decide)]
  show (if false = true then none else _) = _
  rw [hbody, splitFirst_equals hn]
  rfl

theorem forall_mem_assignment {p : Char → Prop} {n v : Text} (hn : ∀ c ∈ n, p c) (hequals : p '=')
    (hv : ∀ c ∈ v, p c) : ∀ c ∈ n ++ '=' :: v, p c :=
  List.forall_mem_append.mpr ⟨hn, List.forall_mem_cons.mpr ⟨hequals, hv⟩⟩

theorem unreferenced_set (hpercent : '%' ∉ u) (hmark : '!' ∉ u) :
    Unreferenced ("set ".toList ++ u) :=
  ⟨by simpa using hpercent, by simpa using hmark⟩

/-- Without quotes. -/
theorem stores_plain {n v : Text} (hn : Plain n) (hv : ∀ c ∈ v, c ∉ "&|<>^\"%!".toList)
    (hlast : ∀ c ∈ v.getLast?, Text.isBlank c = false) :
    Stores ("set ".toList ++ (n ++ '=' :: v)) n v := by
  have hname : ∀ c ∈ n, c ∉ "&|<>^\"%!".toList := by
    intro c hc hmem
    have hnone : ("&|<>^\"%!".toList.all fun d => !d.isAlphanum) = true := by decide
    simpa [hn.alphanum c hc] using List.all_eq_true.mp hnone c hmem
  have hnot := forall_mem_assignment hname (by decide) hv
  have hhead : ∀ c ∈ (n ++ '=' :: v).head?, c.isAlphanum = true := by
    intro c hc
    rw [List.head?_append_of_ne_nil _ hn.ne_nil] at hc
    exact hn.alphanum c (List.mem_of_mem_head? hc)
  have hflat : Flat (n ++ '=' :: v) :=
    fun c hc hmem => hnot c hc (List.mem_append_left ['"', '%', '!'] hmem)
  have hquotes : QuotesApart (fromEquals (n ++ '=' :: v)) := fun hquotes =>
    hnot '"' ((List.dropWhile_suffix _).subset (hquotes.subset (by simp))) (by simp)
  have hfirst : ∀ c ∈ (n ++ '=' :: v).head?,
      Chunk.isDelimiter c = false ∧ c ∉ ['"', '(', ')'] := by
    intro c hc
    refine ⟨isDelimiter_of_isOrdinary (isOrdinary_of_isAlphanum (hhead c hc)), ?_⟩
    simp [ne_of_isAlphanum (hhead c hc)]
  have htrim : Text.trim (n ++ '=' :: v) = n ++ '=' :: v := by
    rw [Text.trim, hn.trimStart_append]
    refine Text.trimEnd_of_last fun c hc => ?_
    rw [List.getLast?_append_of_ne_nil _ (by simp)] at hc
    cases v with
    | nil =>
        obtain rfl : '=' = c := Option.some.inj hc
        rfl
    | cons d v => exact hlast c (by rwa [List.getLast?_cons_cons] at hc)
  have hkept := Lexer.kept_lead hflat hquotes hfirst
  have hverbatim := Lexer.verbatim_of_flat hflat (fun c hc => (hfirst c hc).1) hkept.clean
  refine hverbatim.stores ?_ (unreferenced_set ?_ ?_) ?_
  · exact fun x hx => hkept.ungapped x (List.mem_of_getLast? hx)
  · exact fun hmem => hnot '%' hmem (by simp)
  · exact fun hmem => hnot '!' hmem (by simp)
  · rw [htrim]
    exact parse?_assignment hn v

/-- Between quotes. -/
theorem stores_quoted {n v : Text} (hne : n ≠ []) (hn : ∀ c ∈ n, c ∉ "=\"%!".toList)
    (hv : ∀ c ∈ v, c ∉ "\"%!".toList) :
    Stores ("set ".toList ++ '"' :: (n ++ '=' :: v ++ ['"'])) n v := by
  have hnot : ∀ c ∈ n ++ '=' :: v, c ∉ "\"%!".toList :=
    forall_mem_assignment (fun c hc hmem => hn c hc (List.mem_cons_of_mem _ hmem)) (by decide) hv
  have hquote : '"' ∉ n ++ '=' :: v := fun hmem => hnot _ hmem (by simp)
  have htrim : Text.trim ('"' :: (n ++ '=' :: v ++ ['"'])) = '"' :: (n ++ '=' :: v ++ ['"']) := by
    rw [Text.trim, Text.trimStart_of_head? (by simp; decide)]
    refine Text.trimEnd_of_last ?_
    rw [← List.cons_append, List.getLast?_concat]
    simp
    decide
  refine (Lexer.verbatim_quoted hquote).stores ?_ (unreferenced_set ?_ ?_) ?_
  · intro x hx
    simp [isGap, Lexer.role_of_mem_quoted hquote x (List.mem_of_getLast? hx)]
  · intro hmem
    refine hnot '%' ?_ (by simp)
    simpa using hmem
  · intro hmem
    refine hnot '!' ?_ (by simp)
    simpa using hmem
  · rw [htrim]
    exact parse?_quoted hne (fun hmem => hn _ hmem (by simp)) v

/--
**`SET` stores values as they are written.**  After `set n=v` the outermost frame holds the
variable `n` with the value `v` and nothing else, if the name is made of letters and digits, and
the value holds no operator, caret, quote or sign of a reference and does not end in a blank.
After `set "n=v"` it does so for every name without an equals sign and every value, as long as
they hold no quote and no sign of a reference.
-/
theorem stores_set (n v : Text) (hne : n ≠ []) :
    ((∀ c ∈ n, c.isAlphanum = true) → (∀ c ∈ v, c ∉ "&|<>^\"%!".toList) →
      (∀ c ∈ v.getLast?, Text.isBlank c = false) →
        Stores ("set ".toList ++ n ++ "=".toList ++ v) n v) ∧
    ((∀ c ∈ n, c ∉ "=\"%!".toList) → (∀ c ∈ v, c ∉ "\"%!".toList) →
        Stores ("set \"".toList ++ n ++ "=".toList ++ v ++ "\"".toList) n v) := by
  constructor
  · intro hn hv hlast
    have hplain : Plain n := by
      show (!n.isEmpty && n.all Char.isAlphanum) = true
      simpa [hne] using hn
    have hstores := stores_plain hplain hv hlast
    rwa [← List.append_assoc, ← List.singleton_append, ← List.append_assoc] at hstores
  · intro hn hv
    have hline : "set \"".toList ++ n ++ "=".toList ++ v ++ "\"".toList =
        "set ".toList ++ '"' :: (n ++ '=' :: v ++ ['"']) := by simp
    rw [hline]
    exact stores_quoted hne hn hv

/-- A value of parentheses, single quotes, blanks and separators. -/
theorem stores_set_separators :
    Stores "set n1= =(if  'x',)".toList "n1".toList " =(if  'x',)".toList ∧
      Stores "set \"n1= =(if  'x',)\"".toList "n1".toList " =(if  'x',)".toList := by
  have h := stores_set "n1".toList " =(if  'x',)".toList (by decide)
  exact ⟨h.1 (List.all_eq_true.mp (by decide)) (by simp) (by simp; decide), h.2 (by simp) (by simp)⟩

end BatchTrace
