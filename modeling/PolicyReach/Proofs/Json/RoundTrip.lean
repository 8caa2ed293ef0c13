import Mathlib.Data.List.TakeDrop
import PolicyReach.Json.Printer
import PolicyReach.Json.Reader
import PolicyReach.Proofs.Text.Tokens

/-!
# What is printed is read back

The text of a value says which value it is: the reader finds it again, so no two values have one text.

* `Plain`: the values for which this is so, all but those with a number beyond 64 bits or a string that is
  no text;
* `Escape.read`, **`string?_escaped`**: what a string is written with is read as this string, whatever its
  characters are;
* **`number?_intChars`**: so are the digits of an integer, where nothing follows that could go on with them
  (`Delimited`);
* `ReadBack`, **`Plain.readBack`**: so is every plain value, inside any text;
* **`parse?_text`**, **`text_inj`**: a plain value is what its text parses to, and so is told by its text;
* `fingerprint_inj`: a fingerprint tells the hash that it writes.
-/

namespace PolicyReach.Json

/-- The value has no number but integers of 64 bits, and all its strings are texts. -/
inductive Plain : Json → Prop
  | null : Plain .null
  | bool (b : Bool) : Plain (.bool b)
  | int {n : Int} (low : -2 ^ 63 ≤ n) (high : n < 2 ^ 64) : Plain (.int n)
  | str (s : String) : Plain (.str s)
  | arr {items : List Json} (plain : ∀ v ∈ items, Plain v) : Plain (.arr items)
  | obj {fields : List (String × Json)} (plain : ∀ f ∈ fields, Plain f.2) : Plain (.obj fields)

/-! ## Texts of values -/

theorem chars_int (n : Int) : chars (.int n) = intChars n := rfl

theorem chars_str (s : String) : chars (.str s) = quoted s := rfl

theorem chars_arr (items : List Json) : chars (.arr items) = '[' :: itemChars items := rfl

theorem chars_obj (fields : List (String × Json)) : chars (.obj fields) = '{' :: fieldChars fields := rfl

theorem itemChars_last (v : Json) : itemChars [v] = chars v ++ [']'] := rfl

theorem itemChars_more (v w : Json) (vs : List Json) :
    itemChars (v :: w :: vs) = chars v ++ ',' :: itemChars (w :: vs) := rfl

theorem fieldChars_last (k : String) (v : Json) :
    fieldChars [(k, v)] = quoted k ++ ':' :: chars v ++ ['}'] := rfl

theorem fieldChars_more (k : String) (v : Json) (f : String × Json) (fs : List (String × Json)) :
    fieldChars ((k, v) :: f :: fs) = quoted k ++ ':' :: chars v ++ ',' :: fieldChars (f :: fs) := rfl

/-! ## Strings -/

/-- The three ways in which a character is written: by a letter, by its number, or as it is. -/
inductive Escape (c : Char) : List Char → Prop
  | letter {l : Char} (letter : l ≠ 'u') (escaped : escaped? l = some c) : Escape c ['\\', l]
  | number (low : c.toNat < 0x20) : Escape c ('\\' :: 'u' :: Text.hexadecimal 4 c.toNat)
  | plain (quote : c ≠ '"') (backslash : c ≠ '\\') (high : ¬ c.toNat < 0x20) : Escape c [c]

theorem escape_escape (c : Char) : Escape c (escape c) := by
  by_cases hquote : c = '"'
  · subst hquote
    exact .letter (by decide) rfl
  by_cases hbackslash : c = '\\'
  · subst hbackslash
    exact .letter (by decide) rfl
  by_cases hb : c = '\x08'
  · subst hb
    exact .letter (by decide) rfl
  by_cases ht : c = '\t'
  · subst ht
    exact .letter (by decide) rfl
  by_cases hn : c = '\n'
  · subst hn
    exact .letter (by decide) rfl
  by_cases hf : c = '\x0c'
  · subst hf
    exact .letter (by decide) rfl
  by_cases hr : c = '\r'
  · subst hr
    exact .letter (by decide) rfl
  unfold escape
  rw [if_neg hquote, if_neg hbackslash, if_neg hb, if_neg ht, if_neg hn, if_neg hf, if_neg hr]
  by_cases hlow : c.toNat < 0x20
  · rw [if_pos hlow]
    exact .number hlow
  · rw [if_neg hlow]
    exact .plain hquote hbackslash hlow

theorem pieces?_unit {ds : List Char} {n : Nat} (hlen : ds.length = 4) (hn : Text.hexFrom? 0 ds = some n)
    (cs : List Char) :
    pieces? ('\\' :: 'u' :: (ds ++ cs)) = (pieces? cs).map fun r => (.unit n :: r.1, r.2) := by
  match ds, hlen with
  | [a, b, c, d], _ =>
    show pieces? ('\\' :: 'u' :: a :: b :: c :: d :: cs) = _
    rw [pieces?, hn, Option.bind_eq_bind, Option.bind_some]
    cases pieces? cs <;> rfl

/-- **A character is read back from its written form**, as one piece. -/
theorem Escape.read {c : Char} {w : List Char} (h : Escape c w) :
    ∃ p, (∀ ps, joined? none (p :: ps) = (joined? none ps).map (c :: ·)) ∧
      ∀ cs, pieces? (w ++ cs) = (pieces? cs).map fun r => (p :: r.1, r.2) := by
  cases h with
  | @letter l hu hl =>
    refine ⟨.char c, fun _ => rfl, fun cs => ?_⟩
    show pieces? ('\\' :: l :: cs) = _
    rw [pieces?.eq_4 l cs fun _ _ _ _ _ h _ => hu h, hl, Option.bind_eq_bind, Option.bind_some]
    cases pieces? cs <;> rfl
  | number hlow =>
    refine ⟨.unit c.toNat, fun ps => ?_, fun cs => ?_⟩
    · have hnoHigh : isHighSurrogate c.toNat = false := by
        simp only [isHighSurrogate, Bool.and_eq_false_iff, decide_eq_false_iff_not]
        omega
      have hnoLow : isLowSurrogate c.toNat = false := by
        simp only [isLowSurrogate, Bool.and_eq_false_iff, decide_eq_false_iff_not]
        omega
      simp only [joined?, hnoHigh, hnoLow, Bool.false_eq_true, if_false, Char.ofNat_toNat]
    · exact pieces?_unit (Text.length_hexadecimal (by decide) (by omega))
        (Text.hexFrom?_hexadecimal 4 c.toNat) cs
  | plain hquote hbackslash hhigh =>
    refine ⟨.char c, fun _ => rfl, fun cs => ?_⟩
    show pieces? (c :: cs) = _
    rw [pieces?.eq_5 c cs hquote (fun _ _ _ _ _ h _ => hbackslash h) fun _ _ h _ => hbackslash h, if_neg]
    · cases pieces? cs <;> rfl
    · simp [hhigh, hbackslash]

/-- The pieces of a string are read up to its closing quote, and they make its text. -/
theorem pieces?_escaped (cs r : List Char) :
    ∃ ps, pieces? (cs.flatMap escape ++ '"' :: r) = some (ps, r) ∧ joined? none ps = some cs := by
  induction cs with
  | nil => exact ⟨[], rfl, rfl⟩
  | cons c cs ih =>
    obtain ⟨ps, hps, hjoined⟩ := ih
    obtain ⟨p, hp, hread⟩ := (escape_escape c).read
    refine ⟨p :: ps, ?_, ?_⟩
    · rw [List.flatMap_cons, List.append_assoc, hread, hps, Option.map_some]
    · rw [hp, hjoined, Option.map_some]

/-- **A string is read back**, whatever its characters are. -/
theorem string?_escaped (s : String) (r : List Char) :
    string? (s.toList.flatMap escape ++ '"' :: r) = some (some s, r) := by
  obtain ⟨ps, hps, hjoined⟩ := pieces?_escaped s.toList r
  rw [string?, hps, Option.map_some, hjoined, Option.map_some, String.ofList_toList]

/-! ## Numbers -/

/-- Nothing follows, or a character with which no number goes on. -/
def Delimited (r : List Char) : Prop := ∀ c ∈ r.head?, c.isDigit = false ∧ c ≠ '.' ∧ c ≠ 'e' ∧ c ≠ 'E'

theorem delimited_nil : Delimited [] := nofun

theorem digitRun_append {ds r : List Char} (hds : ∀ c ∈ ds, c.isDigit = true) (hr : Delimited r) :
    digitRun (ds ++ r) = (ds, r) := by
  have hstop : r.takeWhile Char.isDigit = [] ∧ r.dropWhile Char.isDigit = r := by
    cases r with
    | nil => exact ⟨rfl, rfl⟩
    | cons c r =>
      have hc : ¬ c.isDigit = true := Bool.not_eq_true _ ▸ (hr c rfl).1
      exact ⟨List.takeWhile_cons_of_neg hc, List.dropWhile_cons_of_neg hc⟩
  rw [digitRun, List.span_eq_takeWhile_dropWhile, List.takeWhile_append_of_pos hds,
    List.dropWhile_append_of_pos hds, hstop.1, hstop.2, List.append_nil]

theorem fraction?_delimited {r : List Char} (hr : Delimited r) : fraction? r = some ([], r) := by
  unfold fraction?
  split
  · exact absurd rfl (hr '.' rfl).2.1
  · rfl

theorem exponent?_delimited {r : List Char} (hr : Delimited r) : exponent? r = some (none, r) := by
  cases r with
  | nil => rfl
  | cons c r =>
    obtain ⟨-, -, hlow, hhigh⟩ := hr c rfl
    have hnone : ¬ (c == 'e' || c == 'E') = true := by simp [hlow, hhigh]
    rw [exponent?.eq_def]
    exact if_neg hnone

theorem digit?_of_isDigit {c : Char} (h : c.isDigit = true) :
    Text.digit? c = some (c.toNat - '0'.toNat) :=
  if_pos (Char.isDigit_iff_toNat.mp h)

theorem le_ofDigitChars (ds : List Char) (acc : Nat) : acc ≤ Nat.ofDigitChars 10 ds acc := by
  induction ds generalizing acc with
  | nil => exact Nat.le_refl acc
  | cons d ds ih =>
    rw [Nat.ofDigitChars_cons]
    exact Nat.le_trans (by omega) (ih _)

theorem leadingDigits_nil (acc : Nat) : leadingDigits acc [] = (acc, []) := rfl

/-- Digits that fit in 64 bits are all read. -/
theorem leadingDigits_of_lt {ds : List Char} (hds : ∀ c ∈ ds, c.isDigit = true) {acc : Nat}
    (h : Nat.ofDigitChars 10 ds acc < UInt64.size) :
    leadingDigits acc ds = (Nat.ofDigitChars 10 ds acc, []) := by
  induction ds generalizing acc with
  | nil => rfl
  | cons d ds ih =>
    obtain ⟨hd, hds⟩ := List.forall_mem_cons.mp hds
    rw [Nat.ofDigitChars_cons] at h ⊢
    have hlt := Nat.lt_of_le_of_lt (le_ofDigitChars ds _) h
    simp only [leadingDigits, digit?_of_isDigit hd, Option.getD_some]
    rw [if_pos hlt]
    exact ih hds h

/-- The digits of a number begin with one. -/
theorem decimal_cons (n : Nat) : ∃ d ds, Text.decimal n = d :: ds ∧ d.isDigit = true := by
  obtain ⟨d, ds, hds⟩ := List.exists_cons_of_ne_nil (Nat.toDigits_ne_nil (n := n) (b := 10))
  refine ⟨d, ds, hds, Text.isDigit_decimal (n := n) d ?_⟩
  rw [Text.decimal, hds]
  exact List.mem_cons_self

/-- No number but zero begins with a zero. -/
theorem eq_zero_of_decimal {n : Nat} {ds : List Char} (h : Text.decimal n = '0' :: ds) : n = 0 := by
  induction n using Nat.strong_induction_on generalizing ds with
  | _ n ih =>
    rw [Text.decimal, Nat.toDigits_eq_if (by decide)] at h
    split at h
    · rename_i hlt
      exact (by decide : ∀ n < 10, n.digitChar = '0' → n = 0) n hlt (List.cons.inj h).1
    · obtain ⟨c, cs, hcs, -⟩ := decimal_cons (n / 10)
      rw [← Text.decimal, hcs, List.cons_append] at h
      have := ih (n / 10) (by omega) (hcs.trans (congrArg (· :: cs) (List.cons.inj h).1))
      omega

/-- **The digits of a number of 64 bits are read back**, with the sign that was read before them. -/
theorem magnitude?_decimal {negative : Bool} {n : Nat} (hn : n < UInt64.size) {i : Int}
    (hi : signedInt? negative n = some i) {r : List Char} (hr : Delimited r) :
    magnitude? negative (Text.decimal n ++ r) = some (.int i, r) := by
  have hvalue : Nat.ofDigitChars 10 (Text.decimal n) 0 = n :=
    Nat.ofDigitChars_toDigits (by decide) (by decide)
  have hdigits : leadingDigits 0 (Text.decimal n) = (n, []) := by
    rw [leadingDigits_of_lt Text.isDigit_decimal (hvalue.symm ▸ hn), hvalue]
  have hnext : r.head?.any Char.isDigit = false := by
    cases r with
    | nil => rfl
    | cons c r => exact (hr c rfl).1
  -- a zero is read without looking for more digits, so it is a case of its own
  by_cases hzero : n = 0
  · subst hzero
    rw [show Text.decimal 0 = ['0'] from rfl] at hdigits ⊢
    rw [List.singleton_append, magnitude?.eq_1]
    simp [hnext, fraction?_delimited hr, exponent?_delimited hr, hdigits, leadingDigits_nil, hi]
  · obtain ⟨d, ds, hds, -⟩ := decimal_cons n
    have hd : d ≠ '0' := fun h => hzero (eq_zero_of_decimal (h ▸ hds))
    have hrun := digitRun_append (Text.isDigit_decimal (n := n)) hr
    rw [hds] at hdigits hrun ⊢
    rw [magnitude?.eq_2 negative (d :: ds ++ r) fun cs h => hd (List.cons.inj h).1, hrun]
    simp [fraction?_delimited hr, exponent?_delimited hr, hdigits, leadingDigits_nil, hi, hd]

/-- **An integer of 64 bits is read back** from its digits. -/
theorem number?_intChars {n : Int} (hlow : -2 ^ 63 ≤ n) (hhigh : n < 2 ^ 64) {r : List Char}
    (hr : Delimited r) : number? (intChars n ++ r) = some (.int n, r) := by
  cases n with
  | ofNat m =>
    have hm : m < UInt64.size := Int.ofNat_lt.mp hhigh
    have hread : magnitude? false (Text.decimal m ++ r) = some (.int m, r) := magnitude?_decimal hm rfl hr
    show number? (Text.decimal m ++ r) = some (.int m, r)
    unfold number?
    split
    · rename_i cs heq
      obtain ⟨d, ds, hds, hdigit⟩ := decimal_cons m
      rw [hds] at heq
      exact absurd ((List.cons.inj heq).1 ▸ hdigit) (by decide)
    · exact hread
  | negSucc m =>
    have hm : m + 1 ≤ 2 ^ 63 := by
      rw [Int.negSucc_eq] at hlow
      omega
    have hsigned : signedInt? true (m + 1) = some (.negSucc m) := by
      have hmax : Int64.maxValue.toInt + 1 = 2 ^ 63 := rfl
      rw [signedInt?, if_pos rfl, if_neg]
      · rfl
      · rw [hmax]
        omega
    exact magnitude?_decimal (Nat.lt_of_le_of_lt hm (by decide)) hsigned hr

/-! ## Values -/

/-- Inside any text, the value is read back from its own, with fuel for two steps a character. -/
def ReadBack (v : Json) : Prop :=
  ∀ (fuel : Nat) (r : List Char), 2 * (chars v).length ≤ fuel → Delimited r →
    value? fuel (chars v ++ r) = some (v, r)

/-- The text of an integer begins with a digit or a sign. -/
theorem intChars_cons (n : Int) : ∃ c cs, intChars n = c :: cs ∧ (c.isDigit = true ∨ c = '-') := by
  cases n with
  | ofNat m =>
    obtain ⟨d, ds, hds, hdigit⟩ := decimal_cons m
    exact ⟨d, ds, hds, Or.inl hdigit⟩
  | negSucc m => exact ⟨'-', _, rfl, Or.inr rfl⟩

theorem ne_of_number {c : Char} (hc : c.isDigit = true ∨ c = '-') (d : Char)
    (hd : d.isDigit = false ∧ d ≠ '-') : c ≠ d := by
  rintro rfl
  rcases hc with h | h
  · rw [hd.1] at h
    exact nomatch h
  · exact hd.2 h

theorem isSpace_number {c : Char} (hc : c.isDigit = true ∨ c = '-') : isSpace c = false := by
  have hne := ne_of_number hc
  simp [isSpace, hne ' ' (by decide), hne '\n' (by decide), hne '\t' (by decide), hne '\r' (by decide)]

theorem skipSpaces_cons {c : Char} (h : isSpace c = false) (cs : List Char) :
    skipSpaces (c :: cs) = c :: cs :=
  List.dropWhile_cons_of_neg (Bool.not_eq_true _ ▸ h)

/-- Where a digit or a minus sign stands, a number is read. -/
theorem value?_number {c : Char} (hc : c.isDigit = true ∨ c = '-') (fuel : Nat) (cs : List Char) :
    value? (fuel + 1) (c :: cs) = number? (c :: cs) := by
  have hne {d : Char} {ds : List Char} (hd : d.isDigit = false ∧ d ≠ '-') : c :: cs ≠ d :: ds := fun h =>
    ne_of_number hc d hd (List.cons.inj h).1
  rw [value?, skipSpaces_cons (isSpace_number hc)]
  split
  · exact absurd ‹_› (List.cons_ne_nil c cs)
  · exact absurd ‹_› (hne (by decide))
  · exact absurd ‹_› (hne (by decide))
  · exact absurd ‹_› (hne (by decide))
  · exact absurd ‹_› (hne (by decide))
  · exact absurd ‹_› (hne (by decide))
  · exact absurd ‹_› (hne (by decide))
  · rfl

theorem delimited_cons {c : Char} (h : c.isDigit = false ∧ c ≠ '.' ∧ c ≠ 'e' ∧ c ≠ 'E') (r : List Char) :
    Delimited (c :: r) := by
  intro d hd
  obtain rfl := Option.some.inj hd
  exact h

variable {fuel : Nat} {v : Json} {cs rest r : List Char}

theorem items?_last (hv : value? fuel cs = some (v, ']' :: r)) : items? (fuel + 1) cs = some ([v], r) := by
  rw [items?, hv]
  rfl

theorem items?_more {vs : List Json} (hv : value? fuel cs = some (v, ',' :: rest))
    (hvs : items? fuel rest = some (vs, r)) : items? (fuel + 1) cs = some (v :: vs, r) := by
  rw [items?, hv]
  show (items? fuel rest).bind _ = _
  rw [hvs]
  rfl

/-- **Items are read back** if each of them is. -/
theorem items?_itemChars {vs : List Json} (hne : vs ≠ []) (hvs : ∀ v ∈ vs, ReadBack v) {fuel : Nat}
    (hfuel : 2 * (itemChars vs).length ≤ fuel) (r : List Char) :
    items? fuel (itemChars vs ++ r) = some (vs, r) := by
  -- the bracket or comma after an item pays for the step from the list to this item
  induction vs generalizing fuel with
  | nil => exact absurd rfl hne
  | cons v vs ih =>
    obtain ⟨hv, hvs⟩ := List.forall_mem_cons.mp hvs
    cases vs with
    | nil =>
      simp only [itemChars_last, List.length_append, List.length_cons, List.length_nil] at hfuel ⊢
      obtain ⟨fuel, rfl⟩ : ∃ f, fuel = f + 1 := ⟨fuel - 1, by omega⟩
      rw [List.append_assoc]
      exact items?_last (hv fuel _ (by omega) (delimited_cons (by decide) r))
    | cons w vs =>
      simp only [itemChars_more, List.length_append, List.length_cons] at hfuel ⊢
      obtain ⟨fuel, rfl⟩ : ∃ f, fuel = f + 1 := ⟨fuel - 1, by omega⟩
      rw [List.append_assoc]
      exact items?_more (hv fuel _ (by omega) (delimited_cons (by decide) _))
        (ih (List.cons_ne_nil w vs) hvs (by omega))

/-- The name of a field as it is read: its opening quote, what stands before the closing one, a colon. -/
theorem quoted_colon (k : String) (cs : List Char) :
    quoted k ++ ':' :: cs = '"' :: (k.toList.flatMap escape ++ '"' :: ':' :: cs) := by
  rw [quoted, List.cons_append, List.cons_append, List.append_assoc, List.singleton_append]

theorem fields?_last (k : String) (hv : value? fuel cs = some (v, '}' :: r)) :
    fields? (fuel + 1) (quoted k ++ ':' :: cs) = some ([(some k, v)], r) := by
  rw [quoted_colon, fields?]
  show (string? _).bind _ = _
  rw [string?_escaped]
  show (value? fuel cs).bind _ = _
  rw [hv]
  rfl

theorem fields?_more (k : String) {fs : List (ReadText × Json)} (hv : value? fuel cs = some (v, ',' :: rest))
    (hfs : fields? fuel rest = some (fs, r)) :
    fields? (fuel + 1) (quoted k ++ ':' :: cs) = some ((some k, v) :: fs, r) := by
  rw [quoted_colon, fields?]
  show (string? _).bind _ = _
  rw [string?_escaped]
  show (value? fuel cs).bind _ = _
  rw [hv]
  show (fields? fuel rest).bind _ = _
  rw [hfs]
  rfl

/-- **Fields are read back** if their values are. -/
theorem fields?_fieldChars {fs : List (String × Json)} (hne : fs ≠ []) (hfs : ∀ f ∈ fs, ReadBack f.2)
    {fuel : Nat} (hfuel : 2 * (fieldChars fs).length ≤ fuel) (r : List Char) :
    fields? fuel (fieldChars fs ++ r) = some (fs.map fun f => (some f.1, f.2), r) := by
  induction fs generalizing fuel with
  | nil => exact absurd rfl hne
  | cons f fs ih =>
    obtain ⟨k, v⟩ := f
    obtain ⟨(hv : ReadBack v), hfs⟩ := List.forall_mem_cons.mp hfs
    cases fs with
    | nil =>
      simp only [fieldChars_last, List.length_append, List.length_cons, List.length_nil] at hfuel ⊢
      obtain ⟨fuel, rfl⟩ : ∃ f, fuel = f + 1 := ⟨fuel - 1, by omega⟩
      rw [List.append_assoc, List.append_assoc]
      exact fields?_last k (hv fuel _ (by omega) (delimited_cons (by decide) r))
    | cons g fs =>
      simp only [fieldChars_more, List.length_append, List.length_cons] at hfuel ⊢
      obtain ⟨fuel, rfl⟩ : ∃ f, fuel = f + 1 := ⟨fuel - 1, by omega⟩
      rw [List.append_assoc, List.append_assoc]
      exact fields?_more k (hv fuel _ (by omega) (delimited_cons (by decide) _))
        (ih (List.cons_ne_nil g fs) hfs (by omega))

theorem ofFields_known (fs : List (String × Json)) :
    ofFields (fs.map fun f => (some f.1, f.2)) = .obj fs := by
  have hnames : ((fs.map fun f => ((some f.1 : ReadText), f.2)).mapM fun f =>
      f.1.map fun k => (k, f.2)) = some fs := by
    induction fs with
    | nil => rfl
    | cons f fs ih =>
      rw [List.map_cons, List.mapM_cons, ih]
      rfl
  rw [ofFields, hnames]

/-- The text of a value begins neither with a blank nor with a closing bracket. -/
theorem Plain.head (h : Plain v) : ∃ c cs, chars v = c :: cs ∧ isSpace c = false ∧ c ≠ ']' := by
  cases h with
  | null => exact ⟨'n', _, rfl, by decide, by decide⟩
  | bool b =>
    cases b with
    | false => exact ⟨'f', _, rfl, by decide, by decide⟩
    | true => exact ⟨'t', _, rfl, by decide, by decide⟩
  | @int n hlow hhigh =>
    obtain ⟨c, cs, hcs, hc⟩ := intChars_cons n
    exact ⟨c, cs, hcs, isSpace_number hc, ne_of_number hc ']' (by decide)⟩
  | str s => exact ⟨'"', _, rfl, by decide, by decide⟩
  | arr hitems => exact ⟨'[', _, rfl, by decide, by decide⟩
  | obj hfields => exact ⟨'{', _, rfl, by decide, by decide⟩

theorem itemChars_cons (v : Json) (vs : List Json) : ∃ cs, itemChars (v :: vs) = chars v ++ cs := by
  cases vs with
  | nil => exact ⟨_, itemChars_last v⟩
  | cons w vs => exact ⟨_, itemChars_more v w vs⟩

/-- As long as there is a character to read, there is fuel to begin with. -/
theorem Plain.readBack_of_succ (hv : v.Plain)
    (h : ∀ (fuel : Nat) (r : List Char), 2 * (chars v).length ≤ fuel + 1 → Delimited r →
      value? (fuel + 1) (chars v ++ r) = some (v, r)) : ReadBack v := by
  intro fuel r hfuel hr
  obtain ⟨c, cs, hcs, -⟩ := hv.head
  have hpos : 0 < (chars v).length := hcs ▸ Nat.succ_pos cs.length
  obtain ⟨fuel, rfl⟩ : ∃ f, fuel = f + 1 := ⟨fuel - 1, by omega⟩
  exact h fuel r hfuel hr

theorem value?_items {c : Char} (hspace : isSpace c = false) (hbracket : c ≠ ']') {vs : List Json}
    (h : items? fuel (c :: cs) = some (vs, r)) :
    value? (fuel + 1) ('[' :: c :: cs) = some (.arr vs, r) := by
  rw [value?, skipSpaces_cons (by decide)]
  simp only [skipSpaces_cons hspace]
  split
  · exact absurd (List.cons.inj ‹_›).1 hbracket
  · rw [h]
    rfl

theorem value?_fields {fs : List (String × Json)}
    (h : fields? fuel ('"' :: cs) = some (fs.map fun f => (some f.1, f.2), r)) :
    value? (fuel + 1) ('{' :: '"' :: cs) = some (.obj fs, r) := by
  show (fields? fuel ('"' :: cs)).bind _ = _
  rw [h]
  show some (ofFields _, r) = _
  rw [ofFields_known]

theorem readBack_arr {items : List Json} (hplain : ∀ v ∈ items, Plain v) (h : ∀ v ∈ items, ReadBack v) :
    ReadBack (.arr items) := by
  refine (Plain.arr hplain).readBack_of_succ fun fuel r hfuel hr => ?_
  cases items with
  | nil => rfl
  | cons v vs =>
    rw [chars_arr, List.length_cons] at hfuel
    have hitems : items? fuel (itemChars (v :: vs) ++ r) = some (v :: vs, r) :=
      items?_itemChars (List.cons_ne_nil v vs) h (by omega) r
    obtain ⟨c, cs, hcs, hspace, hbracket⟩ := (hplain v List.mem_cons_self).head
    obtain ⟨ds, hds⟩ := itemChars_cons v vs
    rw [chars_arr, List.cons_append]
    rw [hds, hcs] at hitems ⊢
    exact value?_items hspace hbracket hitems

theorem fieldChars_cons (f : String × Json) (fs : List (String × Json)) :
    ∃ cs, fieldChars (f :: fs) = '"' :: cs := by
  cases fs with
  | nil => exact ⟨_, fieldChars_last f.1 f.2⟩
  | cons g fs => exact ⟨_, fieldChars_more f.1 f.2 g fs⟩

theorem readBack_obj {fields : List (String × Json)} (hplain : ∀ f ∈ fields, Plain f.2)
    (h : ∀ f ∈ fields, ReadBack f.2) : ReadBack (.obj fields) := by
  refine (Plain.obj hplain).readBack_of_succ fun fuel r hfuel hr => ?_
  cases fields with
  | nil => rfl
  | cons f fs =>
    rw [chars_obj, List.length_cons] at hfuel
    have hfields : fields? fuel (fieldChars (f :: fs) ++ r) =
        some ((f :: fs).map fun f => (some f.1, f.2), r) :=
      fields?_fieldChars (List.cons_ne_nil f fs) h (by omega) r
    obtain ⟨cs, hcs⟩ := fieldChars_cons f fs
    rw [chars_obj, List.cons_append]
    rw [hcs] at hfields ⊢
    exact value?_fields hfields

/-- **Every plain value is read back from its text.** -/
theorem Plain.readBack (h : Plain v) : ReadBack v := by
  induction h with
  | null => exact Plain.null.readBack_of_succ fun _ _ _ _ => rfl
  | bool b =>
    refine (Plain.bool b).readBack_of_succ fun _ _ _ _ => ?_
    cases b with
    | false => rfl
    | true => rfl
  | @int n hlow hhigh =>
    refine (Plain.int hlow hhigh).readBack_of_succ fun fuel r _ hr => ?_
    obtain ⟨c, cs, hcs, hc⟩ := intChars_cons n
    have hread := number?_intChars hlow hhigh hr
    rw [chars_int]
    rw [hcs] at hread ⊢
    exact (value?_number hc fuel (cs ++ r)).trans hread
  | str s =>
    refine (Plain.str s).readBack_of_succ fun fuel r _ _ => ?_
    rw [chars_str, quoted, List.cons_append, List.cons_append, List.append_assoc, List.singleton_append]
    show (string? _).map _ = _
    rw [string?_escaped]
    rfl
  | arr hplain ih => exact readBack_arr hplain ih
  | obj hplain ih => exact readBack_obj hplain ih

/-! ## Texts -/

/-- **A plain value is what its text parses to.** -/
theorem parse?_text {v : Json} (h : v.Plain) : parse? v.text = some v := by
  have hread := h.readBack (2 * v.chars.length + 2) [] (Nat.le_add_right _ 2) delimited_nil
  rw [List.append_nil] at hread
  rw [parse?, text, String.toList_ofList, hread]
  rfl

/-- **The text of a plain value tells which value it is.** -/
theorem text_inj {v w : Json} (hv : v.Plain) (hw : w.Plain) : v.text = w.text ↔ v = w := by
  constructor
  · intro h
    have hread := parse?_text hv
    rw [h, parse?_text hw] at hread
    exact (Option.some.inj hread).symm
  · exact fun h => h ▸ rfl

/-- A fingerprint tells the hash that it writes. -/
theorem fingerprint_inj {v w : Json} : v.fingerprint = w.fingerprint ↔ v.hash = w.hash := by
  rw [fingerprint, fingerprint, String.ofList_inj, Text.hexadecimal_inj, UInt64.toNat_inj]

end PolicyReach.Json
