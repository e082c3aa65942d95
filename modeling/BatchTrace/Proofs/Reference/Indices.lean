/-
Slices without bounds on their numbers.

An index is kept within 64 bits: after every digit the number that has been read stops at the
bound, and so does every sum with the length of the value.  None of this shows in a slice.  A
number that has reached the bound stays there whatever digits follow, so an index is the number
that its numeral stands for, moved to the nearest index.  A value is never as long as the
greatest index, so a place beyond the bound lies beyond the same end of the value as the bound
itself.

`number` and `exactSlice` say what a numeral and a slice are when integers have no bounds.
-/
import BatchTrace.Proofs.Text.LetterCase
import BatchTrace.Proofs.Token.Calm
import BatchTrace.Reference.Slice
import Mathlib.Data.Nat.Digits.Defs
import Mathlib.Tactic.MkIffOfInductiveProp
import Mathlib.Tactic.Ring

namespace BatchTrace

namespace Slice

/-! ### Numerals and slices over all integers -/

/-- The bases that a numeral can be written in. -/
def bases : List Nat := [8, 10, 16]

/-- The number below `base` that has `c` for its digit, small or capital. -/
def digitValue? (base : Nat) (c : Char) : Option Nat :=
  (List.range base).find? fun d => Nat.digitChar d = c.toLower

/-- The values of the digits that a text starts with. -/
def leadingDigits (base : Nat) (t : Text) : List Nat :=
  (t.takeWhile fun c => (digitValue? base c).isSome).filterMap (digitValue? base)

/-- The number that a text starts with, its first digit being the one that counts most. -/
def positional (base : Nat) (t : Text) : Nat :=
  Nat.ofDigits base (leadingDigits base t).reverse

/-- The number of an unsigned numeral: hexadecimal after `0x`, octal from `0` on, else decimal. -/
def magnitude (t : Text) : Nat :=
  if t.take 2 = ['0', 'x'] ∨ t.take 2 = ['0', 'X'] then positional 16 (t.drop 2)
  else if t.head? = some '0' then positional 8 t
  else positional 10 t

/-- The number of a numeral. -/
def number (t : Text) : Int :=
  let unblank := Text.trimStart t
  if unblank.head? = some '-' then -magnitude unblank.tail
  else if unblank.head? = some '+' then magnitude unblank.tail
  else magnitude unblank

/-- The place nearest to `i` in a value of `total` characters. -/
def nearest (total : Nat) (i : Int) : Nat :=
  (max 0 (min i total)).toNat

/-- The place of a number: counted from the end if it is negative. -/
def offset (total : Nat) (i : Int) : Nat :=
  nearest total (if i < 0 then total + i else i)

/-- The slice of a value. -/
def exactSlice (value : Text) (start : Int) : Option Int → Text
  | none => value.extract (offset value.length start) value.length
  | some n =>
      let first := offset value.length start
      let last := if n < 0 then offset value.length n else nearest value.length (first + n)
      if start < 0 ∧ n < 0 then value.extract (min first last) (max first last)
      else value.extract first last

/-! ### Reading digits -/

theorem digit?_of_not_ascii (base : Nat) {c : Char} (hc : 128 ≤ c.toNat) :
    digit? base c = none := by
  have hdigit : c.isDigit = false := by
    by_contra h
    have := toNat_lt_of_isAlphanum (c := c) (by simp [Char.isAlphanum, h])
    omega
  have hsmall : ¬ c ≤ 'f' := fun h => absurd (show c.toNat ≤ 102 from h) (by omega)
  have hcapital : ¬ c ≤ 'F' := fun h => absurd (show c.toNat ≤ 70 from h) (by omega)
  simp [digit?, hdigit, hsmall, hcapital]

theorem digitValue?_of_not_ascii {base : Nat} (hbase : base ∈ bases) {c : Char}
    (hc : 128 ≤ c.toNat) : digitValue? base c = none := by
  have hle : base ≤ 16 := by
    simp only [bases, List.mem_cons, List.not_mem_nil, or_false] at hbase
    omega
  have hdigits : ((List.range 16).all fun d => (Nat.digitChar d).toNat < 128) = true := by decide
  have hcapitals : Text.capitals.all (fun c => c.toNat < 128) = true := by decide
  have hlower : c.toLower = c := by
    refine (Text.toLower_eq_or_mem_capitals c).resolve_right fun hcapital => ?_
    have := of_decide_eq_true (List.all_eq_true.mp hcapitals c hcapital)
    omega
  refine List.find?_eq_none.mpr fun d hd => ?_
  have hsmall : (Nat.digitChar d).toNat < 128 := by
    simpa using List.all_eq_true.mp hdigits d (by simp at hd ⊢; omega)
  rw [hlower, decide_eq_true_eq]
  rintro rfl
  omega

/-- The digits are those of the notation for numbers in a base. -/
theorem digit?_eq_digitValue? {base : Nat} (hbase : base ∈ bases) (c : Char) :
    digit? base c = digitValue? base c := by
  rcases Nat.lt_or_ge c.toNat 128 with hc | hc
  · have hascii := forall_ascii (p := fun c =>
      bases.all fun base => digit? base c == digitValue? base c) (by decide +kernel) hc
    simpa using List.all_eq_true.mp hascii base hbase
  · rw [digit?_of_not_ascii base hc, digitValue?_of_not_ascii hbase hc]

theorem saturate_of_nonneg {n : Int} (h : 0 ≤ n) : saturate n = min n maxIndex := by
  simp only [saturate, minIndex, maxIndex]
  omega

/-- One more digit: stopping at the bound before it and after it is stopping after it. -/
theorem saturate_digit {n : Int} (hn : 0 ≤ n) {base : Nat} (hbase : 0 < base) (d : Nat) :
    saturate (saturate (saturate n * base) + d) = saturate (n * base + d) := by
  have hgrows : ∀ {m : Int}, 0 ≤ m → m ≤ m * base := fun hm =>
    le_mul_of_one_le_right hm (by exact_mod_cast hbase)
  rcases le_total n maxIndex with hle | hge
  · have hsame : saturate n = n := by rw [saturate_of_nonneg hn, min_eq_left hle]
    have hprod := (hgrows hn).trans' hn
    rw [hsame, saturate_of_nonneg hprod, saturate_of_nonneg (by omega),
      saturate_of_nonneg (by omega)]
    omega
  · have hstopped : saturate n = maxIndex := by rw [saturate_of_nonneg hn, min_eq_right hge]
    have hprod := hgrows (m := maxIndex) (by decide)
    have hmore := hgrows hn
    rw [hstopped, saturate_of_nonneg (n := maxIndex * base) (hprod.trans' (by decide)),
      min_eq_right hprod, saturate_of_nonneg (Int.add_nonneg (by decide) (by omega)),
      saturate_of_nonneg (by omega)]
    omega

theorem leadingDigits_cons_some {base : Nat} {c : Char} {d : Nat} (h : digitValue? base c = some d)
    (t : Text) : leadingDigits base (c :: t) = d :: leadingDigits base t := by
  simp [leadingDigits, h]

theorem leadingDigits_cons_none {base : Nat} {c : Char} (h : digitValue? base c = none)
    (t : Text) : leadingDigits base (c :: t) = [] := by
  simp [leadingDigits, h]

/-- Digits read after a number that may have been stopped at the bound. -/
theorem readDigits_saturate {base : Nat} (hbase : base ∈ bases) (n : Nat) (t : Text) :
    readDigits base (saturate n) t =
      saturate (Nat.ofDigits base ((leadingDigits base t).reverse ++ [n]) : Nat) := by
  have hpos : 0 < base := by
    simp only [bases, List.mem_cons, List.not_mem_nil, or_false] at hbase
    omega
  induction t generalizing n with
  | nil => simp [readDigits, leadingDigits]
  | cons c rest ih =>
    rw [readDigits, digit?_eq_digitValue? hbase]
    cases hd : digitValue? base c with
    | none => simp [leadingDigits_cons_none hd]
    | some d =>
      have hstep : saturate (saturate (saturate n * base) + d) =
          saturate ((n * base + d : Nat)) := by
        push_cast
        exact saturate_digit (by omega) hpos d
      dsimp only
      rw [hstep, ih, leadingDigits_cons_some hd, List.reverse_cons, List.append_assoc,
        Nat.ofDigits_append, Nat.ofDigits_append]
      simp only [List.length_reverse, List.cons_append, List.nil_append, Nat.ofDigits_cons,
        Nat.ofDigits_nil]
      ring_nf

theorem readDigits_zero {base : Nat} (hbase : base ∈ bases) (t : Text) :
    readDigits base 0 t = saturate (positional base t) := by
  have h := readDigits_saturate hbase 0 t
  rwa [Nat.ofDigits_append, Nat.ofDigits_singleton, Nat.mul_zero, Nat.add_zero] at h

theorem readUnsigned_eq (t : Text) : readUnsigned t = saturate (magnitude t) := by
  unfold readUnsigned
  split
  · rw [readDigits_zero (by decide)]
    rfl
  · rw [readDigits_zero (by decide)]
    rfl
  · rename_i digits hx hX
    have hbase : ¬ (('0' :: digits).take 2 = ['0', 'x'] ∨ ('0' :: digits).take 2 = ['0', 'X']) := by
      cases digits <;> simp_all
    rw [magnitude, if_neg hbase, if_pos (by rfl), ← readDigits_zero (by decide)]
    rfl
  · rename_i hx hX hzero
    have hhead : t.head? ≠ some '0' := by
      cases t <;> simp_all
    have hbase : ¬ (t.take 2 = ['0', 'x'] ∨ t.take 2 = ['0', 'X']) := by
      cases t <;> simp_all
    rw [magnitude, if_neg hbase, if_neg hhead, readDigits_zero (by decide)]

/-- `n` moved to the nearest number that is an index and the negative of one. -/
def bounded (n : Int) : Int :=
  max (-maxIndex) (min n maxIndex)

/-- **An index is the number of its numeral**, moved into the bounds. -/
theorem readIndex_eq (t : Text) : readIndex t = bounded (number t) := by
  have hplus : ∀ m : Nat, saturate m = bounded m := fun m => by
    simp only [saturate, bounded, minIndex, maxIndex]
    omega
  have hminus : ∀ m : Nat, -saturate m = bounded (-m) := fun m => by
    simp only [saturate, bounded, minIndex, maxIndex]
    omega
  unfold readIndex number
  split
  · rename_i digits hsign
    rw [readUnsigned_eq, hminus, hsign]
    rfl
  · rename_i digits hsign
    rw [readUnsigned_eq, hplus, hsign]
    rfl
  · rename_i hnegative hpositive
    have hhead : (Text.trimStart t).head? ≠ some '-' ∧ (Text.trimStart t).head? ≠ some '+' := by
      cases h : Text.trimStart t <;> simp_all
    rw [readUnsigned_eq, hplus]
    dsimp only
    rw [if_neg hhead.1, if_neg hhead.2]

/-! ### Places in a value -/

theorem bounded_neg_iff {n : Int} : bounded n < 0 ↔ n < 0 := by
  simp only [bounded, maxIndex]
  omega

section

variable {total : Nat} (htotal : total < 2 ^ 63)
include htotal

theorem clamp_bounded (n : Int) : clamp total (bounded n) = nearest total n := by
  simp only [clamp, bounded, nearest, maxIndex]
  omega

/-- A sum with a place stops at the bound only beyond the end that it would lie beyond anyway. -/
theorem clamp_saturate_add {place : Nat} (hplace : place ≤ total) (n : Int) :
    clamp total (saturate (place + bounded n)) = nearest total (place + n) := by
  simp only [clamp, saturate, bounded, nearest, minIndex, maxIndex]
  omega

theorem clamp_offset (n : Int) :
    (if bounded n < 0 then clamp total (saturate (total + bounded n))
      else clamp total (bounded n)) = offset total n := by
  unfold offset
  by_cases hn : n < 0
  · rw [if_pos (bounded_neg_iff.mpr hn), if_pos hn, clamp_saturate_add htotal le_rfl]
  · rw [if_neg (mt bounded_neg_iff.mp hn), if_neg hn, clamp_bounded htotal]

end

theorem between_eq_extract (value : Text) (first last : Nat) :
    between value first last = value.extract first last := by
  rw [between, List.drop_take, List.extract_eq_take_drop]

theorem offset_le (total : Nat) (n : Int) : offset total n ≤ total := by
  unfold offset nearest
  omega

/-- **The bounds on indices do not show in a slice.** -/
theorem slice_bounded {value : Text} (hvalue : value.length < 2 ^ 63) (start : Int)
    (length : Option Int) :
    slice value (bounded start) (length.map bounded) = exactSlice value start length := by
  unfold slice
  dsimp only
  rw [clamp_offset hvalue start]
  cases length with
  | none => exact between_eq_extract ..
  | some n =>
    simp only [Option.map_some, exactSlice, between_eq_extract, bounded_neg_iff]
    by_cases hn : n < 0
    · have hlast := clamp_offset hvalue n
      rw [if_pos (bounded_neg_iff.mpr hn)] at hlast
      simp only [hlast, hn, and_true, if_true]
    · rw [if_neg hn, if_neg hn, if_neg (by simp [hn]),
        clamp_saturate_add hvalue (offset_le _ _)]

/-! ### Slices as they are written -/

/-- The arguments of a slice: a tilde, a start and, after a comma, a length.  Neither of them may be
blank. -/
@[mk_iff]
structure Written (arguments start : Text) (length : Option Text) : Prop where
  arguments_eq : arguments = '~' :: (start ++ (length.map (',' :: ·)).getD [])
  comma : ',' ∉ start
  start : Text.trim start ≠ []
  length : ∀ l ∈ length, Text.trim l ≠ []

instance (arguments start : Text) (length : Option Text) :
    Decidable (Written arguments start length) :=
  decidable_of_iff _ (written_iff arguments start length).symm

theorem resolve?_of_written {arguments start : Text} {length : Option Text}
    (h : Written arguments start length) (value : Text) :
    resolve? value arguments =
      some (slice value (readIndex start) (length.map readIndex)) := by
  obtain ⟨rfl, hcomma, hstart, hlength⟩ := h
  have hbefore : ∀ d ∈ start, decide (d = ',') = false := fun d hd => by
    simpa using ne_of_mem_of_not_mem hd hcomma
  unfold resolve?
  cases length with
  | none =>
    have hsplit : Text.splitFirst (· = ',') start = none :=
      Text.splitFirst_eq_none_iff.mpr hbefore
    simp [hsplit, hstart]
  | some n =>
    have hsplit : Text.splitFirst (· = ',') (start ++ ',' :: n) = some (start, n) :=
      Text.splitFirst_append hbefore (by simp)
    simp [hsplit, hstart, hlength n rfl]

/-- Nothing else is accepted as a slice. -/
theorem exists_written_of_resolve? {value arguments result : Text}
    (h : resolve? value arguments = some result) :
    ∃ start length, Written arguments start length := by
  unfold resolve? at h
  split at h
  · rename_i arguments
    dsimp only at h
    split at h
    · rename_i hsplit
      have hcomma : ',' ∉ arguments := fun hmem => by
        simpa using Text.splitFirst_eq_none_iff.mp hsplit _ hmem
      split at h
      · simp at h
      · rename_i hblank
        exact ⟨arguments, none, by simp, hcomma, by simpa using hblank, by simp⟩
    · rename_i start length hsplit
      obtain ⟨c, hc, hbefore, rfl⟩ := Text.splitFirst_eq_some hsplit
      obtain rfl : c = ',' := of_decide_eq_true hc
      have hcomma : ',' ∉ start := fun hmem => by simpa using hbefore _ hmem
      split at h
      · simp at h
      · rename_i hblank
        simp only [Bool.or_eq_true, List.isEmpty_iff, not_or] at hblank
        exact ⟨start, some length, rfl, hcomma, hblank.1, by simpa using hblank.2⟩
  · simp at h

/--
**Slices are exact.**  A slice of a value is accepted if a start and perhaps a length are written
in it, and it then stands for the slice that is meant when numbers have no bounds, however many
digits they have.
-/
theorem resolve?_exact (value : Text) (hvalue : value.length < 2 ^ 63) (arguments result : Text) :
    resolve? value arguments = some result ↔
      ∃ start length, Written arguments start length ∧
        exactSlice value (number start) (length.map number) = result := by
  have hwritten : ∀ start length, Written arguments start length →
      resolve? value arguments = some (exactSlice value (number start) (length.map number)) := by
    intro start length h
    rw [resolve?_of_written h, readIndex_eq, ← slice_bounded hvalue, Option.map_map,
      funext readIndex_eq]
    rfl
  constructor
  · intro h
    obtain ⟨start, length, hargs⟩ := exists_written_of_resolve? h
    rw [hwritten start length hargs] at h
    exact ⟨start, length, hargs, Option.some.inj h⟩
  · rintro ⟨start, length, hargs, rfl⟩
    exact hwritten start length hargs

/-- The length has more than 64 bits, ends at a character that is no digit, and lies before the
start. -/
theorem resolve?_exact_huge :
    "abcdef".toList.length < 2 ^ 63 ∧
      resolve? "abcdef".toList "~ -2,-0xFFFFFFFFFFFFFFFFFg".toList = some "abcd".toList :=
  ⟨by decide, (resolve?_exact "abcdef".toList (by decide) _ _).mpr
    ⟨" -2".toList, some "-0xFFFFFFFFFFFFFFFFFg".toList, by decide +kernel, by decide +kernel⟩⟩

end Slice

end BatchTrace
