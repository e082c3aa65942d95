/-
Words of switches.

A word of switches is spelled one switch after the other, and it can be read in one way only: the
argument of a switch ends before the next slash.  What is glued to a final `/c` or `/k` is told
apart from an argument and from a further switch by its first character.  `Spells` says how a word
is spelled, and reading a word finds out just that.

`Takes` says in the same way what reading the switches of `cmd` takes away from the front of its
arguments: separators, words of switches, and at last perhaps the front of a word.  What is taken
and the body together are the arguments.
-/
import BatchTrace.Proofs.Program.LetterCase
import BatchTrace.Proofs.Token.Spelling

namespace BatchTrace

/-- A switch as it stands in a word: a slash and a letter, with an argument behind a colon or
without.  The argument goes as far as the next slash. -/
structure SpelledSwitch where
  letter : Char
  argument : Option Text
  slash_notMem : ∀ a ∈ argument, '/' ∉ a

namespace SpelledSwitch

/-- The text of a switch. -/
def text (x : SpelledSwitch) : Text :=
  '/' :: x.letter :: x.argument.elim [] (':' :: ·)

/-- The switch as it is read. -/
def written (x : SpelledSwitch) : WrittenSwitch :=
  ⟨x.letter.toLower, x.argument⟩

/-- The switch is a `/c` or `/k`, which something can be glued to. -/
def TakesGlue (x : SpelledSwitch) : Prop :=
  x.argument = none ∧ x.letter ∈ ['c', 'C', 'k', 'K']

/-- The text of switches one after the other. -/
def spell (xs : List SpelledSwitch) : Text :=
  xs.flatMap text

@[simp] theorem spell_nil : spell [] = [] := rfl

@[simp] theorem spell_cons (x : SpelledSwitch) (xs : List SpelledSwitch) :
    spell (x :: xs) = x.text ++ spell xs := rfl

/-- The switch with the argument that `value` begins with. -/
def ofValue (letter : Char) (value : Text) : SpelledSwitch where
  letter := letter
  argument := some (value.takeWhile (· ≠ '/'))
  slash_notMem := by
    rintro a ⟨⟩ hmem
    simpa using List.mem_takeWhile_imp hmem

theorem text_ofValue (letter : Char) (value : Text) :
    (ofValue letter value).text ++ value.dropWhile (· ≠ '/') = '/' :: letter :: ':' :: value := by
  simp [text, ofValue, List.takeWhile_append_dropWhile]

end SpelledSwitch

open SpelledSwitch

/-- A word spells the switches `xs`, and `glued` is glued to the last one of them. -/
structure Spells (xs : List SpelledSwitch) (glued word : Text) : Prop where
  ne_nil : xs ≠ []
  word_eq : word = spell xs ++ glued
  takesGlue : glued ≠ [] → ∀ x ∈ xs.getLast?, x.TakesGlue
  glued_head : ∀ c ∈ glued.head?, c ≠ '/' ∧ c ≠ ':'

namespace Spells

variable {x : SpelledSwitch} {xs : List SpelledSwitch} {glued word : Text}

theorem cons (h : Spells xs glued word) : Spells (x :: xs) glued (x.text ++ word) where
  ne_nil := by simp
  word_eq := by rw [h.word_eq, spell_cons, List.append_assoc]
  takesGlue hglued y hy := by
    obtain ⟨z, zs, rfl⟩ := List.exists_cons_of_ne_nil h.ne_nil
    exact h.takesGlue hglued y (by rwa [List.getLast?_cons_cons] at hy)
  glued_head := h.glued_head

theorem singleton (x : SpelledSwitch) : Spells [x] [] x.text where
  ne_nil := by simp
  word_eq := by simp
  takesGlue h := absurd rfl h
  glued_head := by simp

/-- The word behind its first switch. -/
theorem tail {y : SpelledSwitch} (h : Spells (x :: y :: xs) glued word) :
    Spells (y :: xs) glued (spell (y :: xs) ++ glued) where
  ne_nil := by simp
  word_eq := rfl
  takesGlue hglued z hz := h.takesGlue hglued z (by rwa [List.getLast?_cons_cons])
  glued_head := h.glued_head

/-- A word of switches begins with a slash. -/
theorem exists_slash (h : Spells xs glued word) : ∃ more, word = '/' :: more := by
  obtain ⟨x, xs, rfl⟩ := List.exists_cons_of_ne_nil h.ne_nil
  exact ⟨_, h.word_eq⟩

end Spells

theorem toLower_mem_iff {c : Char} :
    (c.toLower = 'c' ∨ c.toLower = 'k') ↔ c ∈ ['c', 'C', 'k', 'K'] := by
  have hblind : Text.CaseBlind fun c => decide (c ∈ ['c', 'C', 'k', 'K']) :=
    Text.caseBlind_of_capitals (by decide)
  constructor
  · intro h
    have hlower : c.toLower ∈ ['c', 'C', 'k', 'K'] := by
      rcases h with h | h <;> rw [h] <;> decide
    exact of_decide_eq_true ((hblind c).symm.trans (decide_eq_true hlower))
  · intro h
    simp only [List.mem_cons, List.not_mem_nil, or_false] at h
    rcases h with rfl | rfl | rfl | rfl <;> decide

namespace WrittenSwitch

section

variable {x : SpelledSwitch} {xs : List SpelledSwitch} {glued word : Text}

/-- A switch that another one follows. -/
theorem readWord?_text_slash (x : SpelledSwitch) (more : Text) :
    readWord? (x.text ++ '/' :: more) = (readWord? ('/' :: more)).map
      fun (ws, glued) => (x.written :: ws, glued) := by
  obtain ⟨letter, _ | a, ha⟩ := x
  · exact readWord?_slash letter more
  · have hrun : ∀ c ∈ a, decide (c ≠ '/') = true := by
      intro c hc
      rw [decide_eq_true_eq]
      rintro rfl
      exact ha a rfl hc
    have hend : ∀ c ∈ ('/' :: more).head?, decide (c ≠ '/') = false := by simp
    show readWord? ('/' :: letter :: ':' :: (a ++ '/' :: more)) = _
    rw [readWord?_colon, dropWhile_run hrun hend, takeWhile_run hrun hend]
    rfl

/-- A switch that nothing follows. -/
theorem readWord?_text (x : SpelledSwitch) : readWord? x.text = some ([x.written], []) := by
  obtain ⟨letter, _ | a, ha⟩ := x
  · show readWord? ['/', letter] = _
    rw [readWord?]
    rfl
  · have hrun : ∀ c ∈ a, decide (c ≠ '/') = true := by
      intro c hc
      rw [decide_eq_true_eq]
      rintro rfl
      exact ha a rfl hc
    show readWord? ('/' :: letter :: ':' :: a) = _
    rw [readWord?_colon, List.dropWhile_eq_nil_iff.mpr hrun, List.takeWhile_eq_self_iff.mpr hrun]
    rfl

/-- A switch that something is glued to. -/
theorem readWord?_text_glued (hx : x.TakesGlue) (hne : glued ≠ [])
    (hhead : ∀ c ∈ glued.head?, c ≠ '/' ∧ c ≠ ':') :
    readWord? (x.text ++ glued) = some ([x.written], glued) := by
  obtain ⟨letter, argument, ha⟩ := x
  obtain ⟨rfl, hletter⟩ := hx
  show readWord? ('/' :: letter :: glued) = _
  rw [readWord?_glued letter hne, if_pos (toLower_mem_iff.mpr hletter)]
  · rfl
  · rintro r rfl
    exact (hhead ':' rfl).2 rfl
  · rintro r rfl
    exact (hhead '/' rfl).1 rfl

/-- **Reading a word of switches undoes its spelling.** -/
theorem readWord?_of_spells (h : Spells xs glued word) :
    readWord? word = some (xs.map SpelledSwitch.written, glued) := by
  induction xs generalizing word with
  | nil => exact absurd rfl h.ne_nil
  | cons x xs ih =>
      rw [h.word_eq, spell_cons, List.append_assoc]
      cases xs with
      | nil =>
          by_cases hne : glued = []
          · subst hne
            simpa using readWord?_text x
          · exact readWord?_text_glued (h.takesGlue hne x rfl) hne h.glued_head
      | cons y ys =>
          obtain ⟨more, hmore⟩ := h.tail.exists_slash
          rw [hmore, readWord?_text_slash, ← hmore, ih h.tail]
          rfl

end

/-- What is read is how the word is spelled. -/
theorem exists_spells (word : Text) : ∀ ws glued, readWord? word = some (ws, glued) →
    ∃ xs, Spells xs glued word ∧ xs.map SpelledSwitch.written = ws := by
  fun_induction readWord? word with
  | case1 letter low =>
      rintro ws glued h
      obtain ⟨rfl, rfl⟩ := Prod.mk.inj (Option.some.inj h)
      exact ⟨[⟨letter, none, by simp⟩], .singleton _, rfl⟩
  | case2 letter low value here hnone =>
      rintro ws glued h
      obtain ⟨rfl, rfl⟩ := Prod.mk.inj (Option.some.inj h)
      refine ⟨[ofValue letter value], ?_, rfl⟩
      rw [← text_ofValue letter value, hnone, List.append_nil]
      exact .singleton _
  | case3 letter low value here c more hsome ih =>
      rintro ws glued h
      obtain ⟨⟨ws', glued'⟩, hread, heq⟩ := Option.map_eq_some_iff.mp h
      obtain ⟨rfl, rfl⟩ := Prod.mk.inj heq
      obtain ⟨xs, hspells, rfl⟩ := ih _ _ hread
      refine ⟨ofValue letter value :: xs, ?_, rfl⟩
      rw [← text_ofValue letter value, hsome]
      exact hspells.cons
  | case4 letter low more ih =>
      rintro ws glued h
      obtain ⟨⟨ws', glued'⟩, hread, heq⟩ := Option.map_eq_some_iff.mp h
      obtain ⟨rfl, rfl⟩ := Prod.mk.inj heq
      obtain ⟨xs, hspells, rfl⟩ := ih _ _ hread
      exact ⟨⟨letter, none, by simp⟩ :: xs, hspells.cons, rfl⟩
  | case5 letter low tail hne hcolon hslash hletter =>
      rintro ws glued h
      obtain ⟨rfl, rfl⟩ := Prod.mk.inj (Option.some.inj h)
      refine ⟨[⟨letter, none, by simp⟩], ⟨by simp, rfl, ?_, ?_⟩, rfl⟩
      · rintro - x ⟨⟩
        exact ⟨rfl, toLower_mem_iff.mp hletter⟩
      · intro c hc
        obtain ⟨r, rfl⟩ := List.head?_eq_some_iff.mp hc
        exact ⟨fun heq => hslash r (heq ▸ rfl), fun heq => hcolon r (heq ▸ rfl)⟩
  | case6 => simp
  | case7 => simp

theorem readWord?_eq_none {word : Text} (h : ∀ xs glued, ¬ Spells xs glued word) :
    readWord? word = none := by
  rw [Option.eq_none_iff_forall_not_mem]
  rintro ⟨ws, glued⟩ hread
  obtain ⟨xs, hspells, -⟩ := exists_spells word ws glued hread
  exact h xs glued hspells

end WrittenSwitch

/-! ### The switches at the front of an argument list -/

/-- Reading the switches takes the text `taken`, with the switches `xs` in it, from the front of the
tokens `ts` and leaves the text `body`. -/
inductive Takes :
    (ts : List Token) → (taken : Text) → (xs : List SpelledSwitch) → (body : Text) → Prop
  /-- A token that is neither a separator nor a word of switches begins the body. -/
  | body {ts : List Token} (h : ∀ t ∈ ts.head?, t.kind ≠ .delimiter ∧
      (t.kind = .literal → ∀ xs glued, ¬ Spells xs glued t.text)) :
      Takes ts [] [] (Token.stringify ts)
  | separator {t : Token} {ts : List Token} {taken body : Text} {xs : List SpelledSwitch}
      (ht : t.kind = .delimiter) (h : Takes ts taken xs body) :
      Takes (t :: ts) (t.text ++ taken) xs body
  /-- The word holds nothing but switches. -/
  | word {t : Token} {ts : List Token} {taken body : Text} {xs ys : List SpelledSwitch}
      (ht : t.kind = .literal) (hword : Spells ys [] t.text) (h : Takes ts taken xs body) :
      Takes (t :: ts) (t.text ++ taken) (ys ++ xs) body
  /-- The body begins in the word, where it is glued to a `/c` or `/k`. -/
  | glued {t : Token} {ts : List Token} {glued : Text} {ys : List SpelledSwitch}
      (ht : t.kind = .literal) (hword : Spells ys glued t.text) (hglued : glued ≠ []) :
      Takes (t :: ts) (spell ys) ys (glued ++ Token.stringify ts)

namespace Takes

variable {ts : List Token} {taken body : Text} {xs : List SpelledSwitch}

/-- Nothing is lost. -/
theorem stringify_eq (h : Takes ts taken xs body) : Token.stringify ts = taken ++ body := by
  induction h with
  | body => rfl
  | separator _ _ ih => rw [Token.stringify_cons, ih, List.append_assoc]
  | word _ _ _ ih => rw [Token.stringify_cons, ih, List.append_assoc]
  | glued _ hword _ => rw [Token.stringify_cons, hword.word_eq, List.append_assoc]

/-- The switches that are taken are entered in their order. -/
theorem ofTokensFrom_eq (h : Takes ts taken xs body) (table : Switches) :
    CmdArguments.ofTokensFrom table ts =
      ⟨(xs.map SpelledSwitch.written).foldl WrittenSwitch.enter table, body⟩ := by
  induction h generalizing table with
  | @body ts hstart =>
      cases ts with
      | nil => rfl
      | cons t ts =>
          obtain ⟨hdelimiter, hword⟩ := hstart t rfl
          rw [CmdArguments.ofTokensFrom]
          split
          · rename_i hkind
            exact absurd hkind hdelimiter
          · rename_i hkind
            rw [WrittenSwitch.readWord?_eq_none (hword hkind)]
            rfl
          · rfl
  | separator ht _ ih =>
      simp only [CmdArguments.ofTokensFrom, ht, ih]
  | word ht hword _ ih =>
      simp only [CmdArguments.ofTokensFrom, ht, WrittenSwitch.readWord?_of_spells hword, ih,
        List.map_append, List.foldl_append]
  | @glued t ts glued ys ht hword hglued =>
      obtain ⟨c, glued, rfl⟩ := List.exists_cons_of_ne_nil hglued
      simp only [CmdArguments.ofTokensFrom, ht, WrittenSwitch.readWord?_of_spells hword]

end Takes

/-- Every argument list can be read. -/
theorem exists_takes (ts : List Token) : ∃ taken xs body, Takes ts taken xs body := by
  induction ts with
  | nil => exact ⟨_, _, _, .body (by simp)⟩
  | cons t ts ih =>
      obtain ⟨taken, xs, body, htakes⟩ := ih
      by_cases hdelimiter : t.kind = .delimiter
      · exact ⟨_, _, _, .separator hdelimiter htakes⟩
      by_cases hword : t.kind = .literal ∧ ∃ ys glued, Spells ys glued t.text
      · obtain ⟨hliteral, ys, glued, hspells⟩ := hword
        by_cases hglued : glued = []
        · subst hglued
          exact ⟨_, _, _, .word hliteral hspells htakes⟩
        · exact ⟨_, _, _, .glued hliteral hspells hglued⟩
      · refine ⟨_, _, _, .body ?_⟩
        rintro u ⟨⟩
        exact ⟨hdelimiter, fun hliteral ys glued hspells => hword ⟨hliteral, ys, glued, hspells⟩⟩

theorem Switches.insert_ne_nil (s : Switch) (v : SwitchValue) (table : Switches) :
    insert s v table ≠ [] := by
  cases table with
  | nil => simp [insert]
  | cons e table =>
      rw [insert]
      split
      · simp
      · split <;> simp

/-- A switch that is entered stays in the table, perhaps with another value. -/
theorem WrittenSwitch.foldl_enter_eq_nil_iff (ws : List WrittenSwitch) :
    ws.foldl enter [] = [] ↔ ws = [] := by
  rcases List.eq_nil_or_concat' ws with rfl | ⟨ws, w, rfl⟩
  · simp
  · rw [List.foldl_concat]
    simp only [List.append_eq_nil_iff, List.cons_ne_self, and_false, iff_false]
    exact Switches.insert_ne_nil _ _ _

/--
**No text is lost by reading the switches of `cmd`.**  What is taken from the front of the arguments
is made up of separators and words of switches, and of the front of one more word if the body is
glued to a `/c` or `/k` in it.  The body is the rest of the text, and the table is empty exactly if
no switch was taken.
-/
theorem CmdArguments.exists_takes_ofTokens (ts : List Token) :
    ∃ taken xs, Takes ts taken xs (ofTokens ts).body ∧
      Token.stringify ts = taken ++ (ofTokens ts).body ∧
      (ofTokens ts).switches = (xs.map SpelledSwitch.written).foldl WrittenSwitch.enter [] ∧
      ((ofTokens ts).switches = [] ↔ xs = []) := by
  obtain ⟨taken, xs, body, htakes⟩ := exists_takes ts
  have hread : ofTokens ts = ⟨(xs.map SpelledSwitch.written).foldl WrittenSwitch.enter [], body⟩ :=
    htakes.ofTokensFrom_eq []
  rw [hread]
  refine ⟨taken, xs, htakes, htakes.stringify_eq, rfl, ?_⟩
  rw [WrittenSwitch.foldl_enter_eq_nil_iff, List.map_eq_nil_iff]

end BatchTrace
