/-
The head of a command.

Where nothing is grouped, chained or quoted, what stands before the first separator names
the program, and what stands after that separator are its arguments.  A command whose first
token is the reserved word `SET` runs `set` whatever its head looks like.
-/
import BatchTrace.Proofs.Program.Parts

namespace BatchTrace

/-- Kinds that neither group nor chain commands nor open a string. -/
def Kind.isLoose (k : Kind) : Bool :=
  k ≠ lParen && k ≠ rParen && k ≠ stringDquoteBegin && !k.isChain

theorem Kind.isLoose_iff {k : Kind} : k.isLoose = true ↔
    k ≠ lParen ∧ k ≠ rParen ∧ k ≠ stringDquoteBegin ∧ k.isChain = false := by
  simp [isLoose, and_assoc]

namespace Program

theorem quoteOpen_of_unopened {ts : List Token} (h : ∀ t ∈ ts, t.kind ≠ .stringDquoteBegin) :
    quoteOpen ts = false := by
  rw [quoteOpen]
  induction ts with
  | nil => rfl
  | cons t rest ih =>
    rw [List.foldl_cons]
    split
    · rename_i hkind
      exact absurd hkind (h t (by simp))
    · exact ih fun u hu => h u (by simp [hu])
    · exact ih fun u hu => h u (by simp [hu])

/-- How the tokens `first :: rest` are taken apart. -/
structure HeadOf (first : Token) (rest : List Token) (p : Program) : Prop where
  name : p.name = nameOfHead (Token.stringify (first :: rest.takeWhile (·.kind ≠ .delimiter)))
  arguments : p.arguments (first :: rest) = (rest.dropWhile (·.kind ≠ .delimiter)).tail

variable {first : Token} {rest : List Token}

theorem name_identify_set (hset : first.kind = .setWord) :
    (identify (first :: rest)).name = "set".toList :=
  congrArg Program.name (identify_setWord (List.forall_mem_nil _) hset rest)

/-- Nothing stands before the head, and nothing is closed behind it. -/
theorem exists_parts_loose
    (h : ∀ u ∈ first :: rest.takeWhile (·.kind ≠ .delimiter), u.kind.isLoose = true)
    (hfirst : first.kind ≠ .delimiter) (hset : first.kind ≠ .setWord) :
    ∃ p : Parts, p.tokens = first :: rest ∧
      p.head = first :: rest.takeWhile (·.kind ≠ .delimiter) ∧
      p.arguments = (rest.dropWhile (·.kind ≠ .delimiter)).tail := by
  refine ⟨{
    leading := []
    head := first :: rest.takeWhile (·.kind ≠ .delimiter)
    closing := []
    separator := (rest.dropWhile (·.kind ≠ .delimiter)).head?
    arguments := (rest.dropWhile (·.kind ≠ .delimiter)).tail
    leading_kind := List.forall_mem_nil _
    head_ne_nil := List.cons_ne_nil _ _
    first_kind := ?_
    head_kind := fun u hu => ⟨?_, (Kind.isLoose_iff.mp (h u hu)).2.2.2⟩
    last_kind := fun u hu => (Kind.isLoose_iff.mp (h u (List.mem_of_getLast? hu))).2.1
    closing_kind := List.forall_mem_nil _
    separator_kind := fun u hu => Or.inl (by simpa using not_of_mem_head?_dropWhile hu)
    arguments_eq_nil := fun hnone => by rw [List.head?_eq_none_iff.mp hnone, List.tail_nil] },
    ?_, rfl, rfl⟩
  · rintro u ⟨⟩
    have hloose := Kind.isLoose_iff.mp (h first (by simp))
    exact ⟨hloose.1, hloose.2.1, hset⟩
  · rcases List.mem_cons.mp hu with rfl | hu
    · exact hfirst
    · simpa using List.mem_takeWhile_imp hu
  · rw [Parts.tokens, List.nil_append, List.nil_append, toList_head?_append_tail,
      List.cons_append, List.takeWhile_append_dropWhile]

/-- **The head ends at the first separator.** -/
theorem identify_loose (h : ∀ u ∈ first :: rest, u.kind.isLoose = true)
    (hfirst : first.kind ≠ .delimiter) (hset : first.kind ≠ .setWord) :
    HeadOf first rest (identify (first :: rest)) := by
  have hloose : ∀ u ∈ first :: rest.takeWhile (·.kind ≠ .delimiter), u.kind.isLoose = true :=
    fun u hu => h u (List.cons_subset_cons first (List.takeWhile_subset _) hu)
  obtain ⟨p, htokens, hhead, harguments⟩ := exists_parts_loose hloose hfirst hset
  have hclosed : ¬ quoteOpen p.head = true := by
    rw [hhead, quoteOpen_of_unopened fun u hu => (Kind.isLoose_iff.mp (hloose u hu)).2.2.1]
    exact Bool.false_ne_true
  rw [← htokens]
  refine ⟨?_, ?_⟩
  · rw [Parts.identify_of_quoteClosed hclosed, hhead]
  · rw [htokens, ← harguments, ← htokens, Parts.arguments_identify hclosed]

/-- A separator right after the first token. -/
theorem identify_spaced {gap : Token} (h : ∀ u ∈ first :: gap :: rest, u.kind.isLoose = true)
    (hfirst : first.kind ≠ .delimiter) (hset : first.kind ≠ .setWord)
    (hgap : gap.kind = .delimiter) :
    (identify (first :: gap :: rest)).name = nameOfHead first.text ∧
      (identify (first :: gap :: rest)).arguments (first :: gap :: rest) = rest := by
  obtain ⟨hname, harguments⟩ := identify_loose h hfirst hset
  rw [List.takeWhile_cons_of_neg (by simp [hgap])] at hname
  rw [List.dropWhile_cons_of_neg (by simp [hgap])] at harguments
  exact ⟨by rw [hname, Token.stringify_cons, Token.stringify_nil, List.append_nil], harguments⟩

end Program

end BatchTrace
