/-
The program of a command does not depend on the case of letters.

The name of a program is in lower case already, and the switches of `cmd` are known
by small letters, so lower-casing a command changes neither.  What it does change is
the text that a switch keeps as its argument and the head that names the program.
-/
import BatchTrace.Program
import BatchTrace.Proofs.Token.LetterCase

namespace BatchTrace

open Text

/-! ### Switches -/

/-- The value in lower case. -/
def SwitchValue.lowered : SwitchValue → SwitchValue
  | flag on => flag on
  | text argument => text (asciiLower argument)

theorem Switch.valueOf_asciiLower (s : Switch) (argument : Option Text) :
    s.valueOf (argument.map asciiLower) = (s.valueOf argument).lowered := by
  cases argument with
  | none => rfl
  | some argument =>
    cases s with
    | other name => rfl
    | _ => exact congrArg (fun b => SwitchValue.flag !(_ && b)) (sameAscii_asciiLower argument _)

namespace Switches

/-- The table with its values in lower case. -/
def lowered (table : Switches) : Switches :=
  table.map (Prod.map id SwitchValue.lowered)

theorem insert_lowered (s : Switch) (v : SwitchValue) (table : Switches) :
    insert s v.lowered (lowered table) = lowered (insert s v table) := by
  fun_induction insert s v table with
  | case1 => rfl
  | case2 v' rest => simp [lowered, insert]
  | case3 s' v' rest hne hlt => simp [lowered, insert, hne, hlt]
  | case4 s' v' rest hne hlt ih => simpa [lowered, insert, hne, hlt] using ih

/-- The switches that are on or off are the same in lower case. -/
theorem flag?_lowered (table : Switches) (s : Switch) :
    flag? (lowered table) s = flag? table s := by
  have hget : get? (lowered table) s = (get? table s).map SwitchValue.lowered := by
    induction table with
    | nil => rfl
    | cons entry rest ih =>
      obtain ⟨s', v'⟩ := entry
      show List.lookup s ((s', v'.lowered) :: lowered rest) = _
      rw [get?, List.lookup_cons, List.lookup_cons]
      split
      · rfl
      · exact ih
  rw [flag?, flag?, hget]
  rcases get? table s with _ | _ | _ <;> rfl

end Switches

namespace WrittenSwitch

/-- The switch with its argument in lower case. -/
def lowered (w : WrittenSwitch) : WrittenSwitch :=
  ⟨w.letter, w.argument.map asciiLower⟩

theorem enter_lowered (table : Switches) (w : WrittenSwitch) :
    enter table.lowered w.lowered = (enter table w).lowered := by
  rw [enter, enter, lowered, Switch.valueOf_asciiLower, Switches.insert_lowered]

theorem foldl_enter_lowered (table : Switches) (ws : List WrittenSwitch) :
    (ws.map lowered).foldl enter table.lowered = (ws.foldl enter table).lowered := by
  rw [List.foldl_map]
  exact List.foldl_hom Switches.lowered enter_lowered

theorem readWord?_of_ne {t : Text} (h : ∀ letter tail, t ≠ '/' :: letter :: tail) :
    readWord? t = none := by
  rw [readWord?]
  exact h

section

variable (letter : Char) {tail : Text}

theorem readWord?_glued (hne : tail ≠ []) (hcolon : ∀ r, tail ≠ ':' :: r)
    (hslash : ∀ r, tail ≠ '/' :: r) : readWord? ('/' :: letter :: tail) =
      if letter.toLower = 'c' ∨ letter.toLower = 'k' then some ([⟨letter.toLower, none⟩], tail)
      else none := by
  rw [readWord?]
  · exact hne
  · exact hcolon
  · exact hslash

theorem readWord?_glued_asciiLower (hne : tail ≠ []) (hcolon : ∀ r, tail ≠ ':' :: r)
    (hslash : ∀ r, tail ≠ '/' :: r) : readWord? ('/' :: letter.toLower :: asciiLower tail) =
      if letter.toLower = 'c' ∨ letter.toLower = 'k' then
        some ([⟨letter.toLower, none⟩], asciiLower tail)
      else none := by
  rw [readWord?_glued _ (mt asciiLower_eq_nil_iff.1 hne) (asciiLower_ne_cons (by decide) hcolon)
    (asciiLower_ne_cons (by decide) hslash), toLower_toLower]

theorem readWord?_colon (value : Text) : readWord? ('/' :: letter :: ':' :: value) =
    match value.dropWhile (· ≠ '/') with
    | [] => some ([⟨letter.toLower, some (value.takeWhile (· ≠ '/'))⟩], [])
    | c :: more => (readWord? (c :: more)).map fun (ws, glued) =>
        (⟨letter.toLower, some (value.takeWhile (· ≠ '/'))⟩ :: ws, glued) := by
  rw [readWord?]
  split
  · rename_i h
    simp only [h]
  · rename_i h
    simp only [h]

theorem readWord?_slash (more : Text) : readWord? ('/' :: letter :: '/' :: more) =
    (readWord? ('/' :: more)).map fun (ws, glued) => (⟨letter.toLower, none⟩ :: ws, glued) := by
  rw [readWord?]

end

theorem readWord?_asciiLower (t : Text) : readWord? (asciiLower t) =
    (readWord? t).map (Prod.map (List.map lowered) asciiLower) := by
  have hvalue : CaseBlind fun c => decide (c ≠ '/') := caseBlind_ne (by decide)
  fun_induction readWord? t with
  | case1 letter =>
    show readWord? ['/', letter.toLower] = _
    rw [readWord?, toLower_toLower]
    rfl
  | case2 letter low value here h =>
    show readWord? ('/' :: letter.toLower :: ':' :: asciiLower value) = _
    rw [readWord?_colon, takeWhile_asciiLower _ hvalue, dropWhile_asciiLower _ hvalue, h,
      toLower_toLower]
    rfl
  | case3 letter low value here c more h ih =>
    show readWord? ('/' :: letter.toLower :: ':' :: asciiLower value) = _
    rw [readWord?_colon, takeWhile_asciiLower _ hvalue, dropWhile_asciiLower _ hvalue, h,
      toLower_toLower]
    show Option.map _ (readWord? (asciiLower (c :: more))) = _
    rw [ih, Option.map_map, Option.map_map]
    rfl
  | case4 letter low more ih =>
    show readWord? ('/' :: letter.toLower :: '/' :: asciiLower more) = _
    rw [readWord?_slash, toLower_toLower]
    show Option.map _ (readWord? (asciiLower ('/' :: more))) = _
    rw [ih, Option.map_map, Option.map_map]
    rfl
  | case5 letter low glued hne hcolon hslash h =>
    exact (readWord?_glued_asciiLower letter hne hcolon hslash).trans (if_pos h)
  | case6 letter low glued hne hcolon hslash h =>
    exact (readWord?_glued_asciiLower letter hne hcolon hslash).trans (if_neg h)
  | case7 t h =>
    refine readWord?_of_ne fun letter tail heq => ?_
    obtain ⟨_ | ⟨d, r⟩, rfl, hr⟩ := (asciiLower_eq_cons_iff (by decide)).1 heq
    · contradiction
    · exact h d r rfl

end WrittenSwitch

namespace CmdArguments

/-- The arguments in lower case. -/
def lowered (a : CmdArguments) : CmdArguments :=
  ⟨a.switches.lowered, asciiLower a.body⟩

theorem ofTokensFrom_lowered (table : Switches) (ts : List Token) :
    ofTokensFrom table.lowered (ts.map Token.lowered) = (ofTokensFrom table ts).lowered := by
  induction ts generalizing table with
  | nil => rfl
  | cons t rest ih =>
    have hall : Token.stringify (t.lowered :: rest.map Token.lowered) =
        asciiLower (Token.stringify (t :: rest)) := Token.stringify_lowered (t :: rest)
    have hread : WrittenSwitch.readWord? t.lowered.text = (WrittenSwitch.readWord? t.text).map
        (Prod.map (List.map WrittenSwitch.lowered) asciiLower) :=
      WrittenSwitch.readWord?_asciiLower t.text
    simp only [List.map_cons, ofTokensFrom, Token.kind_lowered, hall]
    split
    · exact ih table
    · rw [hread]
      rcases WrittenSwitch.readWord? t.text with _ | ⟨ws, _ | ⟨c, glued⟩⟩
      · rfl
      · simp only [Option.map_some, Prod.map_apply, asciiLower_nil,
          WrittenSwitch.foldl_enter_lowered]
        exact ih _
      · simp only [Option.map_some, Prod.map_apply, asciiLower_cons,
          WrittenSwitch.foldl_enter_lowered, Token.stringify_lowered]
        simp [lowered]
    · rfl

theorem ofTokens_lowered (ts : List Token) :
    ofTokens (ts.map Token.lowered) = (ofTokens ts).lowered :=
  ofTokensFrom_lowered [] ts

end CmdArguments

/-! ### Programs -/

namespace Program

theorem caseBlind_isSeparator : CaseBlind isSeparator :=
  caseBlind_of_capitals (by decide)

section

variable (t : Text)

theorem hasDrive_asciiLower : hasDrive (asciiLower t) = hasDrive t := by
  rcases t with _ | ⟨letter, _ | ⟨c, t⟩⟩
  · rfl
  · rfl
  by_cases hc : c = ':'
  · subst hc
    exact caseBlind_isAlpha letter
  · have hlow : c.toLower ≠ ':' := toLower_ne (by decide) hc
    simp [hasDrive, hc, hlow]

theorem isPlain_asciiLower : isPlain (asciiLower t) = isPlain t := by
  rw [isPlain, isPlain, isEmpty_asciiLower, all_asciiLower _ caseBlind_isAlphanum]

theorem isPlainFile_asciiLower : isPlainFile (asciiLower t) = isPlainFile t := by
  have hdot : ((fun c => decide (c = '.')) ∘ Char.toLower) = fun c => decide (c = '.') :=
    funext (caseBlind_eq (by decide))
  rw [isPlainFile, isPlainFile, asciiLower, splitOnP_map, hdot]
  rcases t.splitOnP (· = '.') with _ | ⟨stem, _ | ⟨extension, _ | ⟨more, rest⟩⟩⟩
  · rfl
  · exact isPlain_asciiLower stem
  · exact congrArg₂ (· && ·) (isPlain_asciiLower stem) (isPlain_asciiLower extension)
  · rfl

theorem looksLikePath_asciiLower : looksLikePath (asciiLower t) = looksLikePath t := by
  have hhead : (asciiLower t).head?.any isSeparator = t.head?.any isSeparator := by
    cases t with
    | nil => rfl
    | cons c t => exact caseBlind_isSeparator c
  have hrelative : ["./".toList, ".\\".toList, "../".toList, "..\\".toList].any
      (·.isPrefixOf (asciiLower t)) =
      ["./".toList, ".\\".toList, "../".toList, "..\\".toList].any (·.isPrefixOf t) := by
    simp only [List.any_cons, List.any_nil, isPrefixOf_asciiLower t (p := "./".toList) (by decide),
      isPrefixOf_asciiLower t (p := ".\\".toList) (by decide),
      isPrefixOf_asciiLower t (p := "../".toList) (by decide),
      isPrefixOf_asciiLower t (p := "..\\".toList) (by decide)]
  rw [looksLikePath, looksLikePath, hasDrive_asciiLower, hhead, hrelative,
    any_asciiLower _ caseBlind_isBlank, splitLast_asciiLower _ caseBlind_isSeparator]
  rcases splitLast isSeparator t with _ | ⟨before, last⟩
  · rfl
  · simp [isPlainFile_asciiLower]

theorem basename_asciiLower : basename (asciiLower t) = asciiLower (basename t) := by
  have hdrive : (if hasDrive (asciiLower t) then (asciiLower t).drop 2 else asciiLower t) =
      asciiLower (if hasDrive t then t.drop 2 else t) := by
    rw [hasDrive_asciiLower]
    split
    · exact List.map_drop.symm
    · rfl
  simp only [basename, hdrive, ← asciiLower_reverse, dropWhile_asciiLower _ caseBlind_isSeparator,
    splitLast_asciiLower _ caseBlind_isSeparator]
  generalize (List.dropWhile isSeparator _).reverse = path
  rcases splitLast isSeparator path with _ | ⟨before, name⟩ <;> rfl

theorem normalizeName_asciiLower : normalizeName (asciiLower t) = normalizeName t := by
  rw [normalizeName, normalizeName, lower_asciiLower]

theorem unquoted_asciiLower : unquoted (asciiLower t) = asciiLower (unquoted t) :=
  filter_asciiLower t (caseBlind_ne (by decide))

/-- The name of a program does not depend on the case of its head. -/
theorem nameOfHead_asciiLower : nameOfHead (asciiLower t) = nameOfHead t := by
  simp only [nameOfHead, unquoted_asciiLower, looksLikePath_asciiLower, basename_asciiLower,
    firstWord_asciiLower]
  split <;> exact normalizeName_asciiLower _

end

/-- The program with its head and its switches in lower case. -/
def lowered (p : Program) : Program :=
  { p with head := asciiLower p.head, switches := p.switches.lowered }

theorem arguments_lowered (p : Program) (ts : List Token) :
    p.lowered.arguments (ts.map Token.lowered) = (p.arguments ts).map Token.lowered := by
  rcases p with ⟨name, _ | n, head, switches⟩
  · rfl
  · exact List.map_drop.symm

theorem quoteOpen_lowered (ts : List Token) : quoteOpen (ts.map Token.lowered) = quoteOpen ts := by
  rw [quoteOpen, quoteOpen, List.foldl_map]
  rfl

/-- The program of the command `ts` whose head is what `run`, after `start` other tokens, leaves
without the closing parentheses at its end. -/
def ofRun (start : Nat) (run ts : List Token) : Program :=
  let head := (run.reverse.dropWhile (·.kind = .rParen)).reverse
  if quoteOpen head then unidentified
  else
    let text := Token.stringify head
    let name := nameOfHead text
    let offset := min (start + run.length + 1) ts.length
    let switches :=
      if name = "cmd".toList then (CmdArguments.ofTokens (ts.drop offset)).switches else []
    ⟨name, some offset, text, switches⟩

theorem identify_of_ne_set {ts rest : List Token} {first : Token}
    (h : ts.dropWhile isLeading = first :: rest) (hset : first.kind ≠ .setWord) :
    identify ts =
      ofRun (ts.takeWhile isLeading).length (first :: rest.takeWhile (!endsHead ·)) ts := by
  simp only [identify, h, if_neg hset, ofRun]

theorem identify_of_set {ts rest : List Token} {first : Token}
    (h : ts.dropWhile isLeading = first :: rest) (hset : first.kind = .setWord) :
    identify ts = ⟨"set".toList, some (if rest.head?.any (·.kind = .delimiter) then
      (ts.takeWhile isLeading).length + 2 else (ts.takeWhile isLeading).length + 1),
      first.text, []⟩ := by
  simp only [identify, h, if_pos hset]

theorem ofRun_lowered (start : Nat) (run ts : List Token) :
    ofRun start (run.map Token.lowered) (ts.map Token.lowered) = (ofRun start run ts).lowered := by
  have hhead : ((run.map Token.lowered).reverse.dropWhile (·.kind = .rParen)).reverse =
      ((run.reverse.dropWhile (·.kind = .rParen)).reverse).map Token.lowered := by
    rw [← List.map_reverse, Token.dropWhile_lowered (fun _ => rfl), List.map_reverse]
  simp only [ofRun, hhead, quoteOpen_lowered, Token.stringify_lowered, nameOfHead_asciiLower,
    List.length_map, ← List.map_drop, CmdArguments.ofTokens_lowered]
  split
  · rfl
  · simp only [lowered, CmdArguments.lowered]
    split <;> rfl

/-- The program of a command in lower case. -/
theorem identify_lowered (ts : List Token) :
    identify (ts.map Token.lowered) = (identify ts).lowered := by
  have hstart : ((ts.map Token.lowered).takeWhile isLeading).length =
      (ts.takeWhile isLeading).length := by
    rw [Token.takeWhile_lowered (fun _ => rfl), List.length_map]
  have hdrop := Token.dropWhile_lowered (p := isLeading) (fun _ => rfl) ts
  rcases h : ts.dropWhile isLeading with _ | ⟨first, rest⟩
  · rw [h] at hdrop
    simp only [identify, h, hdrop]
    rfl
  rw [h] at hdrop
  by_cases hset : first.kind = .setWord
  · have hnext : (rest.map Token.lowered).head?.any (·.kind = .delimiter) =
        rest.head?.any (·.kind = .delimiter) := by
      cases rest <;> rfl
    rw [identify_of_set h hset, identify_of_set hdrop hset, hstart, hnext]
    rfl
  · rw [identify_of_ne_set h hset, identify_of_ne_set hdrop hset, hstart, ← ofRun_lowered,
      Token.takeWhile_lowered (fun _ => rfl)]
    rfl

end Program

end BatchTrace
