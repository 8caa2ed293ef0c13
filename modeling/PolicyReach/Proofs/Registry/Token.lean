import PolicyReach.AnalysisError
import PolicyReach.Proofs.Json.RoundTrip
import PolicyReach.Proofs.Text.Tokens

/-!
# The grammar of tokens

A handle goes out as a token and comes back as any text. `TokenText` is the grammar of what is a token, and
of the three numbers that it writes, with no word of how it is taken apart.

Results:
* `tokenText_iff_pieces`: a token is told by its pieces between colons, of which there are four, so that it
  writes no other numbers (`TokenText.unique`);
* **`ofText_eq_ok_iff`**: a text is read as a handle exactly if it is a token that writes its numbers;
* `tokenText_tokenChars`: what is written for a handle is such a token;
* **`tokens_exact`**: handles are read back from their tokens, and all other texts are refused that are not
  tokens with numbers of the right widths.
-/

namespace PolicyReach.Handle

open Text (WritesNat)

variable {cs : List Char} {i g e i' g' e' : Nat} {s : String} {h : Handle}

/-- The characters are a token that writes three numbers: the word `graph` and three fields, each after a
colon, of ASCII digits and at most a plus sign before them. -/
inductive TokenText : List Char → Nat → Nat → Nat → Prop
  | mk {slot generation epoch : List Char} {i g e : Nat} (slotWritten : WritesNat slot i)
      (generationWritten : WritesNat generation g) (epochWritten : WritesNat epoch e) :
      TokenText ("graph".toList ++ ':' :: slot ++ ':' :: generation ++ ':' :: epoch) i g e

/-! ## Pieces of a token -/

theorem colon_not_mem_of_writesNat {ds : List Char} {n : Nat} (hds : WritesNat ds n) : ':' ∉ ds := by
  intro hmem
  rcases hds.mem hmem with heq | hdigit
  · exact absurd heq (by decide)
  · exact absurd hdigit.2 (by decide)

/-- The word and the fields of a token have no colon, so they are its pieces. -/
theorem pieces_eq_fields_iff {slot generation epoch : List Char} (hslot : WritesNat slot i)
    (hgeneration : WritesNat generation g) (hepoch : WritesNat epoch e) :
    Text.pieces (· == ':') cs = ["graph".toList, slot, generation, epoch] ↔
      cs = "graph".toList ++ ':' :: slot ++ ':' :: generation ++ ':' :: epoch := by
  have hcolons : ∀ p ∈ ["graph".toList, slot, generation, epoch], ':' ∉ p := by
    simp only [List.forall_mem_cons]
    exact ⟨by decide, colon_not_mem_of_writesNat hslot, colon_not_mem_of_writesNat hgeneration,
      colon_not_mem_of_writesNat hepoch, nofun⟩
  have hjoined : [':'].intercalate ["graph".toList, slot, generation, epoch] =
      "graph".toList ++ ':' :: slot ++ ':' :: generation ++ ':' :: epoch := by
    simp [List.intercalate]
  rw [Text.pieces_eq_iff (List.cons_ne_nil _ _) hcolons, hjoined]

theorem tokenText_iff_pieces : TokenText cs i g e ↔ ∃ slot generation epoch,
    Text.pieces (· == ':') cs = ["graph".toList, slot, generation, epoch] ∧
      WritesNat slot i ∧ WritesNat generation g ∧ WritesNat epoch e := by
  constructor
  · rintro ⟨hslot, hgeneration, hepoch⟩
    exact ⟨_, _, _, (pieces_eq_fields_iff hslot hgeneration hepoch).mpr rfl, hslot, hgeneration, hepoch⟩
  · rintro ⟨slot, generation, epoch, hpieces, hslot, hgeneration, hepoch⟩
    rw [(pieces_eq_fields_iff hslot hgeneration hepoch).mp hpieces]
    exact .mk hslot hgeneration hepoch

/-- A token writes no other numbers. -/
theorem TokenText.unique (ht : TokenText cs i g e) (ht' : TokenText cs i' g' e') :
    i = i' ∧ g = g' ∧ e = e' := by
  obtain ⟨slot, generation, epoch, hpieces, hslot, hgeneration, hepoch⟩ := tokenText_iff_pieces.mp ht
  obtain ⟨slot', generation', epoch', hpieces', hslot', hgeneration', hepoch'⟩ :=
    tokenText_iff_pieces.mp ht'
  rw [hpieces] at hpieces'
  cases hpieces'
  exact ⟨hslot.unique hslot', hgeneration.unique hgeneration', hepoch.unique hepoch'⟩

/-! ## Reading and writing -/

theorem ofChars?_eq_some_iff :
    ofChars? cs = some h ↔ TokenText cs h.slot.toNat h.generation.toNat h.epoch.toNat := by
  rw [tokenText_iff_pieces]
  unfold ofChars?
  constructor
  · intro hread
    split at hread
    · rename_i word slot generation epoch hpieces
      split at hread
      · rename_i hword
        simp only [Option.bind_eq_bind, Option.bind_eq_some_iff, Option.some.injEq] at hread
        obtain ⟨i, hi, g, hg, e, he, rfl⟩ := hread
        exact ⟨slot, generation, epoch, hword ▸ hpieces, Text.uint32?_eq_some_iff.mp hi,
          Text.uint32?_eq_some_iff.mp hg, Text.uint64?_eq_some_iff.mp he⟩
      · exact nomatch hread
    · exact nomatch hread
  · rintro ⟨slot, generation, epoch, hpieces, hslot, hgeneration, hepoch⟩
    simp only [hpieces, Text.uint32?_eq_some_iff.mpr hslot, Text.uint32?_eq_some_iff.mpr hgeneration,
      Text.uint64?_eq_some_iff.mpr hepoch]
    rfl

theorem ofText_eq_ok_iff_ofToken? : ofText s = .ok h ↔ ofToken? s = some h := by
  unfold ofText
  cases ofToken? s <;> simp

/-- **A text is read as a handle exactly if it is a token that writes its numbers.** -/
theorem ofText_eq_ok_iff :
    ofText s = .ok h ↔ TokenText s.toList h.slot.toNat h.generation.toNat h.epoch.toNat := by
  rw [ofText_eq_ok_iff_ofToken?, ofToken?, ofChars?_eq_some_iff]

/-- What is not read as a handle is refused as it stands. -/
theorem ofText_eq_error_of_not (hnone : ∀ h, ofText s ≠ .ok h) :
    ofText s = .error (.query (.malformedToken s)) := by
  cases hread : ofToken? s with
  | none => simp only [ofText, hread]
  | some h => exact absurd (ofText_eq_ok_iff_ofToken?.mpr hread) (hnone h)

/-- What is written for a handle is a token that writes its numbers. -/
theorem tokenText_tokenChars (h : Handle) :
    TokenText h.tokenChars h.slot.toNat h.generation.toNat h.epoch.toNat :=
  .mk (Text.writesNat_decimal _) (Text.writesNat_decimal _) (Text.writesNat_decimal _)

/-- **A handle is read back from its token.** -/
theorem ofText_token (h : Handle) : ofText h.token = .ok h := by
  rw [ofText_eq_ok_iff, token, String.toList_ofList]
  exact tokenText_tokenChars h

/-- A token in a record is read like any other. -/
theorem ofJson?_str : ofJson? (.str s) = some h ↔ ofText s = .ok h :=
  ofText_eq_ok_iff_ofToken?.symm

/-- Some handle is read exactly where a token has numbers that fit. -/
theorem exists_ofText_iff : (∃ h, ofText s = .ok h) ↔
    ∃ i g e, TokenText s.toList i g e ∧ i < 2 ^ 32 ∧ g < 2 ^ 32 ∧ e < 2 ^ 64 := by
  constructor
  · rintro ⟨h, hread⟩
    exact ⟨_, _, _, ofText_eq_ok_iff.mp hread, h.slot.toNat_lt, h.generation.toNat_lt, h.epoch.toNat_lt⟩
  · rintro ⟨i, g, e, ht, hi, hg, he⟩
    refine ⟨⟨UInt32.ofNat i, UInt32.ofNat g, UInt64.ofNat e⟩, ofText_eq_ok_iff.mpr ?_⟩
    rwa [UInt32.toNat_ofNat_of_lt' hi, UInt32.toNat_ofNat_of_lt' hg, UInt64.toNat_ofNat_of_lt' he]

/-- **Tokens are exact.** A handle is read back from its token, also inside the text of a JSON value. Of all
texts, those are read as handles that are tokens with numbers of 32, 32 and 64 bits, the handle has these
numbers, and every other text is refused as a malformed token. What has been read is read again from the
token that is written for it, however it was written before. -/
theorem tokens_exact :
    (∀ h : Handle, ofText h.token = .ok h ∧ (Json.parse? h.toJson.text).bind ofJson? = some h) ∧
    ∀ s : String,
      ((∃ h, ofText s = .ok h) ↔
        ∃ i g e, TokenText s.toList i g e ∧ i < 2 ^ 32 ∧ g < 2 ^ 32 ∧ e < 2 ^ 64) ∧
      (∀ h i g e, ofText s = .ok h → TokenText s.toList i g e →
        h.slot.toNat = i ∧ h.generation.toNat = g ∧ h.epoch.toNat = e) ∧
      ((¬ ∃ i g e, TokenText s.toList i g e ∧ i < 2 ^ 32 ∧ g < 2 ^ 32 ∧ e < 2 ^ 64) →
        ofText s = .error (.query (.malformedToken s))) ∧
      (∀ h, ofJson? (.str s) = some h ↔ ofText s = .ok h) ∧
      ∀ h, ofText s = .ok h → ofText h.token = .ok h := by
  refine ⟨fun h => ⟨ofText_token h, ?_⟩, fun s => ⟨exists_ofText_iff, fun h i g e hread ht => ?_,
    fun hnone => ?_, fun h => ofJson?_str, fun h _ => ofText_token h⟩⟩
  · have hparsed : Json.parse? h.toJson.text = some (.str h.token) := Json.parse?_text (.str h.token)
    rw [hparsed, Option.bind_some]
    exact ofJson?_str.mpr (ofText_token h)
  · exact (ofText_eq_ok_iff.mp hread).unique ht
  · exact ofText_eq_error_of_not fun h hread => hnone (exists_ofText_iff.mp ⟨h, hread⟩)

example : ofText "graph:+012:3:18446744073709551615" = .ok ⟨12, 3, 18446744073709551615⟩ := by
  decide +kernel

example : ofText "graph:4294967296:3:9" = .error (.query (.malformedToken "graph:4294967296:3:9")) := by
  decide +kernel

end PolicyReach.Handle
