import Mathlib.Data.Nat.Digits.Defs
import PolicyReach.Text.Blank
import PolicyReach.Text.Decimal

/-!
# Words and numbers in text

What the readers of words and numbers find, said without them: a number is a run of ASCII digits, after
at most one sign, and its value is what the digits write in base ten.

* `words_ne_nil`: a text with a character that is not blank has a word, so a trimmed text that is not
  empty has one (`words_trim_ne_nil`);
* **`pieces_eq_iff`**: the pieces of a text are those that make it with separators between them;
* **`natBelow?_eq_some_iff`**, **`intWithin?_eq_some_iff`**: a number is read exactly where one is written
  that is within the bound, or the width that it is read for (`uint32?_eq_some_iff`, `uint64?_eq_some_iff`);
* `WritesNat.unique`, `writesNat_decimal`: no text writes two numbers, and `decimal` writes the one it is
  given;
* `hexFrom?_hexadecimal`: hexadecimal digits are read back, so they tell which number they write
  (`hexadecimal_inj`).
-/

namespace PolicyReach.Text

/-! ## Words -/

/-- Cutting into pieces is splitting a list at what satisfies a predicate. -/
theorem pieces_eq_splitOnP (cut : Char → Bool) (cs : List Char) :
    pieces cut cs = cs.splitOnP cut := by
  induction cs with
  | nil => rfl
  | cons c cs ih =>
    rw [pieces, List.splitOnP_cons_eq_if_modifyHead, ← ih]
    split
    · rfl
    · cases hpieces : pieces cut cs with
      | nil => exact absurd (ih.symm.trans hpieces) (List.splitOnP_ne_nil cut cs)
      | cons p ps => rfl

theorem pieces_ne_nil (cut : Char → Bool) (cs : List Char) : pieces cut cs ≠ [] := by
  rw [pieces_eq_splitOnP]
  exact List.splitOnP_ne_nil cut cs

/-- **The pieces of a text are those that make it with separators between them.** -/
theorem pieces_eq_iff {sep : Char} {cs : List Char} {ps : List (List Char)} (hne : ps ≠ [])
    (hps : ∀ p ∈ ps, sep ∉ p) : pieces (· == sep) cs = ps ↔ cs = [sep].intercalate ps := by
  rw [pieces_eq_splitOnP]
  constructor
  · rintro rfl
    exact (List.intercalate_splitOn sep).symm
  · rintro rfl
    exact List.splitOn_intercalate sep hps hne

/-- A character that is not cut at is in one of the pieces. -/
theorem exists_mem_pieces {cut : Char → Bool} {c : Char} (hcut : cut c = false) :
    ∀ {cs : List Char}, c ∈ cs → ∃ p ∈ pieces cut cs, c ∈ p
  | d :: cs, h => by
    unfold pieces
    rcases List.mem_cons.mp h with rfl | hrest
    · rw [hcut, if_neg Bool.false_ne_true]
      split
      · exact absurd ‹_› (pieces_ne_nil cut cs)
      · exact ⟨_, List.mem_cons_self, List.mem_cons_self⟩
    · obtain ⟨p, hp, hc⟩ := exists_mem_pieces hcut hrest
      split
      · exact ⟨p, List.mem_cons_of_mem _ hp, hc⟩
      · split
        · exact absurd ‹_› (pieces_ne_nil cut cs)
        · rename_i first rest heq
          rcases List.mem_cons.mp (heq ▸ hp) with rfl | hlater
          · exact ⟨_, List.mem_cons_self, List.mem_cons_of_mem d hc⟩
          · exact ⟨p, List.mem_cons_of_mem _ hlater, hc⟩

theorem words_ne_nil {cs : List Char} {c : Char} (hc : c ∈ cs) (hblank : isBlank c = false) :
    words cs ≠ [] := by
  obtain ⟨p, hp, hmem⟩ := exists_mem_pieces hblank hc
  have hword : p ∈ words cs := by
    refine List.mem_filter.mpr ⟨hp, ?_⟩
    rw [Bool.not_eq_true', List.isEmpty_eq_false_iff]
    exact List.ne_nil_of_mem hmem
  exact List.ne_nil_of_mem hword

/-- **What is left of a text when its ends are trimmed has a word**, unless nothing is left. -/
theorem words_trim_ne_nil {cs : List Char} (h : trim cs ≠ []) : words (trim cs) ≠ [] := by
  have hne : (cs.dropWhile isBlank).reverse.dropWhile isBlank ≠ [] := fun hnil =>
    h (congrArg List.reverse hnil)
  refine words_ne_nil (List.mem_reverse.mpr (List.head_mem hne)) ?_
  exact List.head_dropWhile_not isBlank _

/-! ## Numbers -/

/-- `cs` are one or more ASCII digits that write `n`. -/
structure Numeral (cs : List Char) (n : Nat) : Prop where
  nonempty : cs ≠ []
  digits : ∀ c ∈ cs, '0' ≤ c ∧ c ≤ '9'
  value : Nat.ofDigits 10 (cs.map fun c => c.toNat - '0'.toNat).reverse = n

/-- `cs` writes the number `n`, maybe with a plus sign. -/
def WritesNat (cs : List Char) (n : Nat) : Prop :=
  ∃ ds, Numeral ds n ∧ (cs = ds ∨ cs = '+' :: ds)

/-- `cs` writes the number `n`, maybe with a sign. -/
def WritesInt (cs : List Char) (n : Int) : Prop :=
  ∃ ds k, Numeral ds k ∧ ((cs = ds ∨ cs = '+' :: ds) ∧ n = k ∨ cs = '-' :: ds ∧ n = -k)

theorem digit?_eq_some_iff {c : Char} {d : Nat} :
    digit? c = some d ↔ ('0' ≤ c ∧ c ≤ '9') ∧ c.toNat - '0'.toNat = d := by
  unfold digit?
  rw [Option.ite_none_right_eq_some, Option.some.injEq]

/-- A digit in front weighs as many tens as there are digits after it. -/
theorem ofDigits_reverse_cons (d : Nat) (ds : List Nat) :
    Nat.ofDigits 10 (d :: ds).reverse = d * 10 ^ ds.length + Nat.ofDigits 10 ds.reverse := by
  rw [List.reverse_cons, Nat.ofDigits_append, Nat.ofDigits_singleton, List.length_reverse,
    Nat.mul_comm, Nat.add_comm]

theorem digitsFrom?_eq_some_iff {cs : List Char} {acc n : Nat} :
    digitsFrom? acc cs = some n ↔ (∀ c ∈ cs, '0' ≤ c ∧ c ≤ '9') ∧
      acc * 10 ^ cs.length +
        Nat.ofDigits 10 (cs.map fun c => c.toNat - '0'.toNat).reverse = n := by
  induction cs generalizing acc with
  | nil => simp [digitsFrom?]
  | cons c cs ih =>
    rw [digitsFrom?, Option.bind_eq_some_iff]
    simp only [digit?_eq_some_iff, ih]
    rw [List.map_cons, ofDigits_reverse_cons, List.length_map, List.length_cons, List.forall_mem_cons]
    have hvalue (d rest : Nat) : (10 * acc + d) * 10 ^ cs.length + rest =
        acc * 10 ^ (cs.length + 1) + (d * 10 ^ cs.length + rest) := by ring
    simp only [hvalue]
    constructor
    · rintro ⟨_, ⟨hc, rfl⟩, hcs, hn⟩
      exact ⟨⟨hc, hcs⟩, hn⟩
    · rintro ⟨⟨hc, hcs⟩, hn⟩
      exact ⟨_, ⟨hc, rfl⟩, hcs, hn⟩

theorem digits?_eq_some_iff {cs : List Char} {n : Nat} : digits? cs = some n ↔ Numeral cs n := by
  cases cs with
  | nil => exact ⟨(nomatch ·), fun h => absurd rfl h.nonempty⟩
  | cons c cs =>
    show digitsFrom? 0 (c :: cs) = some n ↔ _
    rw [digitsFrom?_eq_some_iff, Nat.zero_mul, Nat.zero_add]
    exact ⟨fun h => ⟨List.cons_ne_nil c cs, h.1, h.2⟩, fun h => ⟨h.digits, h.value⟩⟩

/-- A numeral does not begin with a sign. -/
theorem Numeral.head {cs : List Char} {n : Nat} (h : Numeral cs n) (c : Char) (ds : List Char)
    (hsign : c = '+' ∨ c = '-') : cs ≠ c :: ds := by
  rintro rfl
  have hdigit := (h.digits c List.mem_cons_self).1
  rcases hsign with rfl | rfl <;> exact absurd hdigit (by decide)

/-- **A number below a bound is read exactly where one is written.** -/
theorem natBelow?_eq_some_iff {bound : Nat} {cs : List Char} {n : Nat} :
    natBelow? bound cs = some n ↔ WritesNat cs n ∧ n < bound := by
  unfold natBelow?
  simp only [Option.filter_eq_some_iff, decide_eq_true_eq]
  refine and_congr_left fun _ => ?_
  split
  · rename_i ds
    rw [digits?_eq_some_iff]
    refine ⟨fun h => ⟨ds, h, Or.inr rfl⟩, ?_⟩
    rintro ⟨ds', h, rfl | heq⟩
    · exact absurd rfl (h.head '+' ds (Or.inl rfl))
    · obtain rfl := (List.cons.inj heq).2
      exact h
  · rename_i hplus
    rw [digits?_eq_some_iff]
    refine ⟨fun h => ⟨cs, h, Or.inl rfl⟩, ?_⟩
    rintro ⟨ds, h, rfl | rfl⟩
    · exact h
    · exact absurd rfl (hplus ds)

/-- No text writes two numbers. -/
theorem WritesNat.unique {cs : List Char} {m n : Nat} (hm : WritesNat cs m) (hn : WritesNat cs n) :
    m = n := by
  -- reading gives one number at most, below a bound that both are under
  have hreadm : natBelow? (m + n + 1) cs = some m := natBelow?_eq_some_iff.mpr ⟨hm, by omega⟩
  have hreadn : natBelow? (m + n + 1) cs = some n := natBelow?_eq_some_iff.mpr ⟨hn, by omega⟩
  exact Option.some.inj (hreadm.symm.trans hreadn)

/-- A number is written with digits and a plus sign only. -/
theorem WritesNat.mem {cs : List Char} {n : Nat} (h : WritesNat cs n) {c : Char} (hc : c ∈ cs) :
    c = '+' ∨ '0' ≤ c ∧ c ≤ '9' := by
  obtain ⟨ds, hds, rfl | rfl⟩ := h
  · exact Or.inr (hds.digits c hc)
  · exact (List.mem_cons.mp hc).imp id (hds.digits c)

/-- **A number of 32 bits is read exactly where one is written.** -/
theorem uint32?_eq_some_iff {cs : List Char} {n : UInt32} :
    uint32? cs = some n ↔ WritesNat cs n.toNat := by
  unfold uint32?
  simp only [Option.map_eq_some_iff, natBelow?_eq_some_iff]
  constructor
  · rintro ⟨k, ⟨hk, hlt⟩, rfl⟩
    rwa [UInt32.toNat_ofNat_of_lt' hlt]
  · exact fun h => ⟨n.toNat, ⟨h, n.toNat_lt⟩, UInt32.ofNat_toNat⟩

/-- **A number of 64 bits is read exactly where one is written.** -/
theorem uint64?_eq_some_iff {cs : List Char} {n : UInt64} :
    uint64? cs = some n ↔ WritesNat cs n.toNat := by
  unfold uint64?
  simp only [Option.map_eq_some_iff, natBelow?_eq_some_iff]
  constructor
  · rintro ⟨k, ⟨hk, hlt⟩, rfl⟩
    rwa [UInt64.toNat_ofNat_of_lt' hlt]
  · exact fun h => ⟨n.toNat, ⟨h, n.toNat_lt⟩, UInt64.ofNat_toNat⟩

theorem writesInt_plus {ds : List Char} {n : Int} :
    WritesInt ('+' :: ds) n ↔ ∃ k, Numeral ds k ∧ (k : Int) = n := by
  constructor
  · rintro ⟨ds', k, h, ⟨rfl | heq, rfl⟩ | ⟨heq, rfl⟩⟩
    · exact absurd rfl (h.head '+' ds (Or.inl rfl))
    · exact ⟨k, (List.cons.inj heq).2 ▸ h, rfl⟩
    · exact absurd (List.cons.inj heq).1 (by decide)
  · rintro ⟨k, h, rfl⟩
    exact ⟨ds, k, h, Or.inl ⟨Or.inr rfl, rfl⟩⟩

theorem writesInt_minus {ds : List Char} {n : Int} :
    WritesInt ('-' :: ds) n ↔ ∃ k, Numeral ds k ∧ -(k : Int) = n := by
  constructor
  · rintro ⟨ds', k, h, ⟨rfl | heq, rfl⟩ | ⟨heq, rfl⟩⟩
    · exact absurd rfl (h.head '-' ds (Or.inr rfl))
    · exact absurd (List.cons.inj heq).1 (by decide)
    · exact ⟨k, (List.cons.inj heq).2 ▸ h, rfl⟩
  · rintro ⟨k, h, rfl⟩
    exact ⟨ds, k, h, Or.inr ⟨rfl, rfl⟩⟩

/-- Where there is no sign, there are digits only. -/
theorem writesInt_bare {cs : List Char} {n : Int} (hplus : ∀ ds, cs ≠ '+' :: ds)
    (hminus : ∀ ds, cs ≠ '-' :: ds) : WritesInt cs n ↔ ∃ k, Numeral cs k ∧ (k : Int) = n := by
  constructor
  · rintro ⟨ds, k, h, ⟨rfl | rfl, rfl⟩ | ⟨rfl, rfl⟩⟩
    · exact ⟨k, h, rfl⟩
    · exact absurd rfl (hplus ds)
    · exact absurd rfl (hminus ds)
  · rintro ⟨k, h, rfl⟩
    exact ⟨cs, k, h, Or.inl ⟨Or.inl rfl, rfl⟩⟩

/-- **A number within a bound is read exactly where one is written.** -/
theorem intWithin?_eq_some_iff {bound : Nat} {cs : List Char} {n : Int} :
    intWithin? bound cs = some n ↔ WritesInt cs n ∧ -(bound : Int) ≤ n ∧ n < bound := by
  unfold intWithin?
  simp only [Option.filter_eq_some_iff, decide_eq_true_eq]
  refine and_congr_left fun _ => ?_
  split
  · rw [writesInt_plus]
    simp only [Option.map_eq_some_iff, digits?_eq_some_iff, Int.ofNat_eq_natCast]
  · rw [writesInt_minus]
    simp only [Option.map_eq_some_iff, digits?_eq_some_iff, Int.ofNat_eq_natCast]
  · rename_i hplus hminus
    rw [writesInt_bare (fun ds heq => hplus ds heq) fun ds heq => hminus ds heq]
    simp only [Option.map_eq_some_iff, digits?_eq_some_iff, Int.ofNat_eq_natCast]

/-! ## Decimal digits -/

theorem isDigit_decimal {n : Nat} : ∀ c ∈ decimal n, c.isDigit = true := fun _ =>
  Nat.isDigit_of_mem_toDigits (by decide) (by decide)

/-- The digits that are written for a number are a numeral for it. -/
theorem numeral_decimal (n : Nat) : Numeral (decimal n) n where
  nonempty := Nat.toDigits_ne_nil
  digits c hc := Char.isDigit_iff_toNat.mp (isDigit_decimal c hc)
  value := by
    have hvalue : Nat.ofDigitChars 10 (decimal n) 0 = n :=
      Nat.ofDigitChars_toDigits (by decide) (by decide)
    rw [Nat.ofDigitChars_eq_foldl] at hvalue
    rw [Nat.ofDigits_eq_foldr, List.foldr_reverse, List.foldl_map]
    simpa only [Nat.cast_id, Nat.add_comm] using hvalue

/-- **A number is written by its digits.** -/
theorem writesNat_decimal (n : Nat) : WritesNat (decimal n) n :=
  ⟨decimal n, numeral_decimal n, Or.inl rfl⟩

/-! ## Hexadecimal digits -/

theorem hexDigit?_digitChar : ∀ d < 16, hexDigit? d.digitChar = some d := by decide

theorem hexFrom?_append (acc : Nat) (cs ds : List Char) :
    hexFrom? acc (cs ++ ds) = (hexFrom? acc cs).bind fun n => hexFrom? n ds := by
  induction cs generalizing acc with
  | nil => rfl
  | cons c cs ih => simp only [List.cons_append, hexFrom?, ih, Option.bind_assoc]

theorem hexFrom?_toDigits (n : Nat) : hexFrom? 0 (Nat.toDigits 16 n) = some n := by
  induction n using Nat.strong_induction_on with
  | _ n ih =>
    rw [Nat.toDigits_eq_if (by decide)]
    split
    · rename_i hlt
      rw [hexFrom?, hexDigit?_digitChar n hlt, Option.bind_some, hexFrom?, Nat.zero_add]
    · rw [hexFrom?_append, ih (n / 16) (by omega), Option.bind_some, hexFrom?,
        hexDigit?_digitChar (n % 16) (Nat.mod_lt n (by decide)), Option.bind_some, hexFrom?,
        Nat.div_add_mod]

/-- **Hexadecimal digits are read back**, whatever they are padded to. -/
theorem hexFrom?_hexadecimal (width n : Nat) : hexFrom? 0 (hexadecimal width n) = some n := by
  have hzeros (k : Nat) : hexFrom? 0 (List.replicate k '0') = some 0 := by
    induction k with
    | zero => rfl
    | succ k ih => exact ih
  rw [hexadecimal, hexFrom?_append, hzeros, Option.bind_some, hexFrom?_toDigits]

theorem hexadecimal_inj {width m n : Nat} : hexadecimal width m = hexadecimal width n ↔ m = n := by
  constructor
  · intro h
    have hread := hexFrom?_hexadecimal width m
    rw [h, hexFrom?_hexadecimal] at hread
    exact (Option.some.inj hread).symm
  · exact fun h => h ▸ rfl

theorem length_hexadecimal {width n : Nat} (hwidth : 0 < width) (h : n < 16 ^ width) :
    (hexadecimal width n).length = width := by
  have hlen := Nat.toDigits_length 16 n width hwidth h
  rw [hexadecimal, List.length_append, List.length_replicate]
  omega

end PolicyReach.Text
