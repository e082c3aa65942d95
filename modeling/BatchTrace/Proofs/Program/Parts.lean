/-
A command in its parts.

Parentheses, separators and chain operators may stand before the head of a command, and
parentheses that are closed behind it.  What ends the head stands between it and the arguments.
`Parts` is a command taken apart in this way.  A command that does not begin with the reserved
word `SET` is made of such parts, unless it holds nothing but what may stand before a head, and
its program is read off them: no token of the command is lost, and none is counted twice.
-/
import BatchTrace.Proofs.Program.LetterCase
import BatchTrace.Proofs.Token.Spelling

namespace BatchTrace

namespace Program

/-- The parts of a command that has a head. -/
structure Parts where
  /-- What stands before the head. -/
  leading : List Token
  /-- What names the program. -/
  head : List Token
  /-- The parentheses that are closed behind the head. -/
  closing : List Token
  /-- What ends the head. -/
  separator : Option Token
  /-- The arguments of the program. -/
  arguments : List Token
  leading_kind : ∀ t ∈ leading,
    t.kind = .lParen ∨ t.kind = .rParen ∨ t.kind = .delimiter ∨ t.kind.isChain = true
  head_ne_nil : head ≠ []
  first_kind : ∀ t ∈ head.head?, t.kind ≠ .lParen ∧ t.kind ≠ .rParen ∧ t.kind ≠ .setWord
  head_kind : ∀ t ∈ head, t.kind ≠ .delimiter ∧ t.kind.isChain = false
  last_kind : ∀ t ∈ head.getLast?, t.kind ≠ .rParen
  closing_kind : ∀ t ∈ closing, t.kind = .rParen
  separator_kind : ∀ t ∈ separator, t.kind = .delimiter ∨ t.kind.isChain = true
  /-- Only the end of the command ends a head without a separator. -/
  arguments_eq_nil : separator = none → arguments = []

theorem isLeading_iff {t : Token} : isLeading t = true ↔
    t.kind = .lParen ∨ t.kind = .rParen ∨ t.kind = .delimiter ∨ t.kind.isChain = true := by
  simp [isLeading, or_assoc]

theorem endsHead_iff {t : Token} :
    endsHead t = true ↔ t.kind = .delimiter ∨ t.kind.isChain = true := by
  simp [endsHead]

theorem endsHead_eq_false_iff {t : Token} :
    endsHead t = false ↔ t.kind ≠ .delimiter ∧ t.kind.isChain = false := by
  simp [endsHead]

namespace Parts

variable (p : Parts)

/-- The command that the parts make up. -/
def tokens : List Token :=
  p.leading ++ (p.head ++ (p.closing ++ (p.separator.toList ++ p.arguments)))

/-- How many tokens stand before the arguments. -/
def offset : Nat :=
  p.leading.length + p.head.length + p.closing.length + p.separator.toList.length

/-- The program that the head names, unless a quote is open in it. -/
def program : Program :=
  if quoteOpen p.head then unidentified
  else
    let name := nameOfHead (Token.stringify p.head)
    ⟨name, some p.offset, Token.stringify p.head,
      if name = "cmd".toList then (CmdArguments.ofTokens p.arguments).switches else []⟩

theorem drop_offset : p.tokens.drop p.offset = p.arguments := by
  have hlength : p.offset =
      (p.leading ++ (p.head ++ (p.closing ++ p.separator.toList))).length := by
    simp only [offset, List.length_append]
    omega
  have htokens : p.tokens =
      (p.leading ++ (p.head ++ (p.closing ++ p.separator.toList))) ++ p.arguments := by
    simp only [tokens, List.append_assoc]
  rw [htokens, hlength, List.drop_left]

theorem offset_le : p.offset ≤ p.tokens.length := by
  simp only [offset, tokens, List.length_append]
  omega

/-- The offset counts the separator, but does not go beyond the end of the command. -/
theorem min_length :
    min (p.leading.length + (p.head ++ p.closing).length + 1) p.tokens.length = p.offset := by
  simp only [offset, tokens, List.length_append]
  cases h : p.separator with
  | none =>
      rw [p.arguments_eq_nil h, Option.toList_none, List.length_nil]
      omega
  | some d =>
      rw [Option.toList_some, List.length_singleton]
      omega

/-- The parentheses at its end are taken off a head. -/
theorem drop_closing :
    ((p.head ++ p.closing).reverse.dropWhile (·.kind = .rParen)).reverse = p.head := by
  have hclosing : ∀ t ∈ p.closing.reverse, decide (t.kind = .rParen) = true := by
    intro t ht
    simpa using p.closing_kind t (List.mem_reverse.mp ht)
  have hlast : ∀ t ∈ p.head.reverse.head?, decide (t.kind = .rParen) = false := by
    intro t ht
    rw [List.head?_reverse] at ht
    simpa using p.last_kind t ht
  rw [List.reverse_append, dropWhile_run hclosing hlast, List.reverse_reverse]

/-- **The program is read off the parts.** -/
theorem identify_tokens : identify p.tokens = p.program := by
  obtain ⟨first, more, hhead⟩ := List.exists_cons_of_ne_nil p.head_ne_nil
  have hfirst := p.first_kind first (by rw [hhead]; rfl)
  have hkind := p.head_kind first (by rw [hhead]; simp)
  have htokens : p.tokens =
      p.leading ++ (first :: (more ++ p.closing ++ (p.separator.toList ++ p.arguments))) := by
    rw [tokens, hhead, List.cons_append, List.append_assoc]
  have hleading : ∀ t ∈ p.leading, isLeading t = true := fun t ht =>
    isLeading_iff.mpr (p.leading_kind t ht)
  have hstart : isLeading first = false := by
    rw [← Bool.not_eq_true, isLeading_iff]
    simp [hfirst.1, hfirst.2.1, hkind.1, hkind.2]
  have hrun : ∀ t ∈ more ++ p.closing, (!endsHead t) = true := by
    intro t ht
    rw [Bool.not_eq_true', endsHead_eq_false_iff]
    rcases List.mem_append.mp ht with ht | ht
    · exact p.head_kind t (by rw [hhead]; simp [ht])
    · rw [p.closing_kind t ht]
      exact ⟨by decide, rfl⟩
  have hend : ∀ t ∈ (p.separator.toList ++ p.arguments).head?, (!endsHead t) = false := by
    intro t ht
    cases hsep : p.separator with
    | none => simp [hsep, p.arguments_eq_nil hsep] at ht
    | some d =>
        rw [hsep] at ht
        obtain rfl : d = t := by simpa using ht
        rw [Bool.not_eq_false', endsHead_iff]
        exact p.separator_kind d hsep
  have htake : p.tokens.takeWhile isLeading = p.leading := by
    rw [htokens, takeWhile_run hleading (by simpa using hstart)]
  have hdrop : p.tokens.dropWhile isLeading =
      first :: (more ++ p.closing ++ (p.separator.toList ++ p.arguments)) := by
    rw [htokens, dropWhile_run hleading (by simpa using hstart)]
  have hwhole : first :: (more ++ p.closing) = p.head ++ p.closing := by
    rw [hhead, List.cons_append]
  rw [identify_of_ne_set hdrop hfirst.2.2, htake, takeWhile_run hrun hend, hwhole]
  simp only [ofRun, program, p.drop_closing, p.min_length, p.drop_offset]

variable {p}

theorem identify_of_quoteOpen (h : quoteOpen p.head = true) :
    identify p.tokens = unidentified := by
  rw [p.identify_tokens, program, if_pos h]

theorem identify_of_quoteClosed (h : ¬ quoteOpen p.head = true) : identify p.tokens =
    ⟨nameOfHead (Token.stringify p.head), some p.offset, Token.stringify p.head,
      if nameOfHead (Token.stringify p.head) = "cmd".toList then
        (CmdArguments.ofTokens p.arguments).switches
      else []⟩ := by
  rw [p.identify_tokens, program, if_neg h]

theorem arguments_identify (h : ¬ quoteOpen p.head = true) :
    (identify p.tokens).arguments p.tokens = p.arguments := by
  rw [identify_of_quoteClosed h]
  exact p.drop_offset

end Parts

/-- The parentheses at the end of a run are closed behind what is left of it. -/
theorem exists_head_closing {first : Token} (h : first.kind ≠ .rParen) (more : List Token) :
    ∃ head closing, first :: more = head ++ closing ∧ head.head? = some first ∧
      (∀ t ∈ head.getLast?, t.kind ≠ .rParen) ∧ ∀ t ∈ closing, t.kind = .rParen := by
  let isClosing : Token → Bool := fun t => t.kind = .rParen
  have hsplit : (first :: more).rdropWhile isClosing ++ (first :: more).rtakeWhile isClosing =
      first :: more := List.rdropWhile_append_rtakeWhile
  have hne : (first :: more).rdropWhile isClosing ≠ [] := by
    intro hnil
    have hall := List.rdropWhile_eq_nil_iff.mp hnil first (by simp)
    exact h (by simpa [isClosing] using hall)
  refine ⟨_, _, hsplit.symm, ?_, ?_, fun t ht => ?_⟩
  · obtain ⟨u, us, hu⟩ := List.exists_cons_of_ne_nil hne
    rw [hu] at hsplit
    rw [hu, List.head?_cons, (List.cons.inj hsplit).1]
  · intro t ht
    have hlast := List.rdropWhile_last_not isClosing _ hne
    rw [List.getLast?_eq_getLast_of_ne_nil hne, Option.mem_def, Option.some.injEq] at ht
    rw [ht] at hlast
    simpa [isClosing] using hlast
  · simpa [isClosing] using List.mem_rtakeWhile_imp ht

theorem toList_head?_append_tail {α : Type} (l : List α) : l.head?.toList ++ l.tail = l := by
  cases l <;> rfl

/-- The head runs to the first token that ends it, or to the end of the command. -/
theorem exists_separator (ts : List Token) :
    ∃ run separator arguments, ts = run ++ (Option.toList separator ++ arguments) ∧
      (∀ t ∈ run, t.kind ≠ .delimiter ∧ t.kind.isChain = false) ∧
      (∀ t ∈ separator, t.kind = .delimiter ∨ t.kind.isChain = true) ∧
      (separator = none → arguments = []) := by
  refine ⟨ts.takeWhile (!endsHead ·), (ts.dropWhile (!endsHead ·)).head?,
    (ts.dropWhile (!endsHead ·)).tail, ?_, ?_, ?_, ?_⟩
  · rw [toList_head?_append_tail, List.takeWhile_append_dropWhile]
  · intro t ht
    have hnot := List.mem_takeWhile_imp ht
    rwa [Bool.not_eq_true', endsHead_eq_false_iff] at hnot
  · intro t ht
    have hends := not_of_mem_head?_dropWhile ht
    rwa [Bool.not_eq_false', endsHead_iff] at hends
  · intro hnone
    rw [List.head?_eq_none_iff.mp hnone, List.tail_nil]

/-- What may not stand before a head begins one, unless it is the reserved word `SET`. -/
theorem exists_parts {ts rest : List Token} {first : Token}
    (h : ts.dropWhile isLeading = first :: rest) (hset : first.kind ≠ .setWord) :
    ∃ p : Parts, p.tokens = ts := by
  have hmem : first ∈ (ts.dropWhile isLeading).head? := by rw [h]; rfl
  have hfirst := not_of_mem_head?_dropWhile hmem
  rw [← Bool.not_eq_true, isLeading_iff, not_or, not_or, not_or, Bool.not_eq_true] at hfirst
  obtain ⟨hlparen, hrparen, hdelimiter, hchain⟩ := hfirst
  obtain ⟨more, separator, arguments, rfl, hmore, hseparator, hnone⟩ := exists_separator rest
  obtain ⟨head, closing, hrun, hhead, hlast, hclosing⟩ := exists_head_closing hrparen more
  refine ⟨{
    leading := ts.takeWhile isLeading
    head := head
    closing := closing
    separator := separator
    arguments := arguments
    leading_kind := fun t ht => isLeading_iff.mp (List.mem_takeWhile_imp ht)
    head_ne_nil := by rintro rfl; simp at hhead
    first_kind := by rw [hhead]; rintro t ⟨⟩; exact ⟨hlparen, hrparen, hset⟩
    head_kind := ?_
    last_kind := hlast
    closing_kind := hclosing
    separator_kind := hseparator
    arguments_eq_nil := hnone }, ?_⟩
  · intro t ht
    have hmem : t ∈ first :: more := by rw [hrun]; exact List.mem_append_left _ ht
    rcases List.mem_cons.mp hmem with rfl | hmem
    · exact ⟨hdelimiter, hchain⟩
    · exact hmore t hmem
  · calc
      ts.takeWhile isLeading ++ (head ++ (closing ++ (separator.toList ++ arguments)))
          = ts.takeWhile isLeading ++ ((head ++ closing) ++ (separator.toList ++ arguments)) := by
            rw [List.append_assoc]
      _ = ts.takeWhile isLeading ++ ts.dropWhile isLeading := by rw [← hrun, h, List.cons_append]
      _ = ts := List.takeWhile_append_dropWhile

/-! ### What a command begins with -/

theorem identify_of_leading {ts : List Token} (h : ∀ t ∈ ts, isLeading t = true) :
    identify ts = unidentified := by
  simp only [identify, List.dropWhile_eq_nil_iff.mpr h]

section

variable {leading : List Token} {w : Token} (hleading : ∀ t ∈ leading, isLeading t = true)
  (hw : w.kind = .setWord) (rest : List Token)
include hleading hw

theorem identify_setWord : identify (leading ++ w :: rest) = ⟨"set".toList,
    some (if rest.head?.any (·.kind = .delimiter) then leading.length + 2 else leading.length + 1),
    w.text, []⟩ := by
  have hstart : ∀ t ∈ (w :: rest).head?, isLeading t = false := by
    rintro t ⟨⟩
    simp [isLeading, hw, Kind.isChain]
  have hdrop := dropWhile_run hleading hstart
  rw [identify_of_set hdrop hw, takeWhile_run hleading hstart]

/-- The separator behind the reserved word is no argument. -/
theorem arguments_setWord :
    (identify (leading ++ w :: rest)).arguments (leading ++ w :: rest) =
      if rest.head?.any (·.kind = .delimiter) then rest.tail else rest := by
  rw [identify_setWord hleading hw rest, arguments]
  dsimp only
  split
  · rw [List.drop_length_add_append]
    exact List.drop_one
  · rw [List.drop_length_add_append]
    rfl

theorem offset_setWord_le {o : Nat} (h : (identify (leading ++ w :: rest)).offset = some o) :
    o ≤ (leading ++ w :: rest).length := by
  rw [identify_setWord hleading hw rest, Option.some.injEq] at h
  rw [List.length_append, List.length_cons, ← h]
  cases rest with
  | nil => simp
  | cons d rest =>
      rw [List.length_cons]
      split <;> omega

end

/-- A command holds nothing that could be a head, begins with the reserved word `SET`, or is made
of parts. -/
theorem command_cases (ts : List Token) :
    (∀ t ∈ ts, isLeading t = true) ∨
      (∃ leading w rest, ts = leading ++ w :: rest ∧ (∀ t ∈ leading, isLeading t = true) ∧
        w.kind = .setWord) ∨
      ∃ p : Parts, p.tokens = ts := by
  cases h : ts.dropWhile isLeading with
  | nil => exact Or.inl (List.dropWhile_eq_nil_iff.mp h)
  | cons first rest =>
      by_cases hset : first.kind = .setWord
      · refine Or.inr (Or.inl ⟨ts.takeWhile isLeading, first, rest, ?_, ?_, hset⟩)
        · rw [← h, List.takeWhile_append_dropWhile]
        · exact fun t ht => List.mem_takeWhile_imp ht
      · exact Or.inr (Or.inr (exists_parts h hset))

/--
**Every token of a command is accounted for.**  If a program is named, its arguments begin within
the command.  If the command does not begin with the reserved word `SET`, it is made of parts, of
which the head is the one that is reported and the arguments are the ones that are handed on.
-/
theorem exists_parts_of_identify {ts : List Token} {o : Nat} (h : (identify ts).offset = some o) :
    o ≤ ts.length ∧ ∀ first ∈ ts.find? (!isLeading ·), first.kind ≠ .setWord →
      ∃ p : Parts, p.tokens = ts ∧ Token.stringify p.head = (identify ts).head ∧
        p.arguments = (identify ts).arguments ts := by
  rcases command_cases ts with hall | ⟨leading, w, rest, rfl, hleading, hw⟩ | ⟨p, rfl⟩
  · rw [identify_of_leading hall] at h
    exact absurd h (by simp [unidentified])
  · refine ⟨offset_setWord_le hleading hw rest h, fun first hfirst hset => ?_⟩
    have hfind : (leading ++ w :: rest).find? (!isLeading ·) = some w := by
      rw [List.find?_append, List.find?_eq_none.mpr (by simpa using hleading), Option.none_or,
        List.find?_cons_of_pos (by simp [isLeading, hw, Kind.isChain])]
    rw [hfind] at hfirst
    exact absurd hw (Option.some.inj hfirst ▸ hset)
  · by_cases hopen : quoteOpen p.head = true
    · rw [Parts.identify_of_quoteOpen hopen] at h
      exact absurd h (by simp [unidentified])
    · have hparts := Parts.identify_of_quoteClosed hopen
      rw [hparts] at h
      obtain rfl := Option.some.inj h
      exact ⟨p.offset_le, fun _ _ _ =>
        ⟨p, rfl, by rw [hparts], (Parts.arguments_identify hopen).symm⟩⟩

/-- A command behind an operator, with one parenthesis too many behind its head. -/
theorem exists_parts_of_identify_grouped :
    let ts := Token.tokenize "&(calc.exe)),x y".toList
    (identify ts).offset = some 6 ∧ 6 ≤ ts.length ∧
      ∃ p : Parts, p.tokens = ts ∧ Token.stringify p.head = "calc.exe".toList ∧
        p.arguments = ts.drop 6 := by
  intro ts
  have h : (identify ts).offset = some 6 := by decide +kernel
  obtain ⟨hle, hparts⟩ := exists_parts_of_identify h
  obtain ⟨p, htokens, hhead, harguments⟩ :=
    hparts ⟨.literal, "calc.exe".toList, ⟨1, 2, 10⟩⟩ (by decide +kernel) (by decide)
  refine ⟨h, hle, p, htokens, hhead.trans (by decide +kernel), harguments.trans ?_⟩
  rw [arguments, h]

end Program

end BatchTrace
