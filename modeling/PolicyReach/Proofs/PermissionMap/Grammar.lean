import PolicyReach.Proofs.PermissionMap.Weights
import PolicyReach.Proofs.Text.Tokens

/-!
# The grammar of permission maps

A permission map is read line by line, and the count of a class is compared with what the class lists
only when the next class begins or the text ends. What is accepted in the end is a grammar
(`MapText`) that has no state: a line with the number of classes, and so many blocks, each a header
with the number of its entries and so many entries.

* `ContentLine.words_ne_nil`: a content line has a word, so its first word can be looked at;
* `Remainder`: what lines must still list when a class is being listed;
* **`MapReading.foldlM_iff`**: the lines that are taken in without an error are those that list a
  remainder, and what they leave is the map with all of it put in;
* `PermissionMap.get?_putAll`: of what is put in for a permission the last stays;
* **`PermissionMap.ofText_exact`**: the texts that write a map are those of the grammar, and the map
  says of a permission what is listed last.
-/

namespace PolicyReach

/-! ## Content lines -/

/-- What stands before the first `#` of a line, without the blanks at its ends. -/
def contentOf (line : List Char) : List Char := Text.trim (line.takeWhile (· != '#'))

/-- The contents of the lines of a text that have any. -/
def contents (text : String) : List (List Char) :=
  ((Text.lines text.toList).map contentOf).filter fun content => !content.isEmpty

namespace ContentLine

/-- The content lines of a text are its contents, with the numbers of their lines. -/
theorem map_content_ofText (text : String) : (ofText text).map content = contents text := by
  unfold ofText contents
  rw [List.map_filterMap]
  generalize Text.lines text.toList = lines
  generalize 1 = first
  induction lines generalizing first with
  | nil => rfl
  | cons line lines ih =>
    rw [List.zipIdx_cons, List.filterMap_cons, List.map_cons, List.filter_cons, ← ih (first + 1)]
    show _ = if (!(contentOf line).isEmpty) = true then _ else _
    cases hempty : (contentOf line).isEmpty with
    | true =>
      unfold contentOf at hempty
      simp [hempty]
    | false =>
      unfold contentOf at hempty
      simp [hempty, contentOf]

/-- **A content line has a word.** -/
theorem words_ne_nil {text : String} {l : ContentLine} (hl : l ∈ ofText text) : l.words ≠ [] := by
  have hmem : l.content ∈ contents text := by
    rw [← map_content_ofText]
    exact List.mem_map_of_mem hl
  obtain ⟨hline, hne⟩ := List.mem_filter.mp hmem
  obtain ⟨line, -, hcontent⟩ := List.mem_map.mp hline
  rw [Bool.not_eq_true', List.isEmpty_eq_false_iff] at hne
  rw [← hcontent] at hne
  unfold words
  rw [← hcontent]
  exact Text.words_trim_ne_nil hne

end ContentLine

/-! ## What is listed -/

/-- What an entry lists: a permission, its direction, and its weight before it is clamped. -/
structure MapEntry where
  perm : String
  current : Current
  weight : Int

/-- What a map says of a permission that is listed: its weight is the nearest one in range. -/
def MapEntry.mapping (x : MapEntry) : Mapping :=
  { current := x.current, weight := UInt32.ofNat (max 1 (min x.weight 10)).toNat }

/-- What a block lists: a class and its entries. -/
structure MapClass where
  name : String
  entries : List MapEntry

/-- The entries of a block, each with its class. -/
def MapClass.listed (c : MapClass) : List (String × MapEntry) := c.entries.map fun x => (c.name, x)

/-- The last entry that the blocks of a class list for a permission. -/
def lastListed? (classes : List MapClass) (cls perm : String) : Option MapEntry :=
  (((classes.filter fun c => c.name = cls).flatMap MapClass.entries).filter
    fun x => x.perm = perm).getLast?

/-! ## The grammar -/

/-- The words of a line that lists an entry: a permission, which is not the word that headers begin with,
a letter of either case, and a weight. -/
inductive EntryLine : List (List Char) → MapEntry → Prop
  | mk {perm letter weight : List Char} {current : Current} {n : Int}
      (named : perm ≠ "class".toList) (lowered : letter.map Char.toLower = current.letter.toList)
      (weighed : Text.WritesInt weight n) (fits : -2 ^ 63 ≤ n ∧ n < 2 ^ 63) :
      EntryLine [perm, letter, weight] ⟨String.ofList perm, current, n⟩

/-- The one word of a line that gives the number of classes. -/
inductive CountLine : List (List Char) → Nat → Prop
  | mk {count : List Char} {n : Nat} (counted : Text.WritesNat count n) (fits : n < 2 ^ 64) :
      CountLine [count] n

/-- The words of a header: the name of a class, and the number of its entries. -/
inductive HeaderLine : List (List Char) → String → Nat → Prop
  | mk {name count : List Char} {n : Nat} (counted : Text.WritesNat count n) (fits : n < 2 ^ 64) :
      HeaderLine ["class".toList, name, count] (String.ofList name) n

/-- The lines of a class: a header, and as many entries as it says. -/
inductive Block : List (List (List Char)) → MapClass → Prop
  | mk {first : List (List Char)} {lines : List (List (List Char))} {c : MapClass}
      (header : HeaderLine first c.name c.entries.length)
      (entries : List.Forall₂ EntryLine lines c.entries) : Block (first :: lines) c

/-- The lines of a map: none at all, or the number of classes and as many blocks. -/
inductive MapText : List (List (List Char)) → List MapClass → Prop
  | nothing : MapText [] []
  | classes {first : List (List Char)} {blocks : List (List (List (List Char)))}
      {classes : List MapClass} (count : CountLine first classes.length)
      (written : List.Forall₂ Block blocks classes) : MapText (first :: blocks.flatten) classes

theorem HeaderLine.head? {words : List (List Char)} {name : String} {n : Nat}
    (h : HeaderLine words name n) : words.head? = some "class".toList := by
  cases h
  rfl

theorem EntryLine.head? {words : List (List Char)} {x : MapEntry} (h : EntryLine words x) :
    words.head? ≠ some "class".toList := by
  cases h with
  | mk named => exact fun heq => named (Option.some.inj heq)

/-! ## Reading a line -/

/-- A letter is that of a direction in either case. -/
theorem Current.ofLetter?_eq_some_iff {letter : List Char} {d : Current} :
    Current.ofLetter? (String.ofList letter) = some d ↔
      letter.map Char.toLower = d.letter.toList := by
  have hkeyword : Text.keyword (String.ofList letter) = String.ofList (letter.map Char.toLower) := by
    unfold Text.keyword
    rw [String.toList_ofList]
  have heq (c : Current) : c.letter = Text.keyword (String.ofList letter) ↔
      letter.map Char.toLower = c.letter.toList := by
    rw [hkeyword, String.ext_iff, String.toList_ofList, eq_comm]
  rw [← heq]
  unfold Current.ofLetter? Text.choose? Current.all
  rw [Option.map_eq_some_iff]
  constructor
  · rintro ⟨⟨w, c⟩, hfind, rfl⟩
    have hw := List.find?_some hfind
    have hmem := List.mem_of_find?_eq_some hfind
    obtain ⟨c', -, heq'⟩ := List.mem_map.mp hmem
    cases heq'
    exact beq_iff_eq.mp hw
  · intro h
    rw [← h]
    cases d <;> exact ⟨_, rfl, rfl⟩

theorem count?_eq_some_iff {cs : List Char} {n : Nat} :
    Text.count? cs = some n ↔ Text.WritesNat cs n ∧ n < 2 ^ 64 :=
  Text.natBelow?_eq_some_iff

theorem weight?_eq_some_iff {cs : List Char} {n : Int} :
    Text.intWithin? (UInt64.size / 2) cs = some n ↔
      Text.WritesInt cs n ∧ -2 ^ 63 ≤ n ∧ n < 2 ^ 63 :=
  Text.intWithin?_eq_some_iff

theorem PermissionMap.declaredClasses_eq_ok_iff {l : ContentLine} {n : Nat} :
    PermissionMap.declaredClasses l = .ok n ↔ CountLine l.words n := by
  unfold PermissionMap.declaredClasses
  constructor
  · intro h
    split at h
    · rename_i count hwords
      split at h
      · rename_i k hcount
        obtain rfl := Except.ok.inj h
        obtain ⟨hwrites, hfits⟩ := count?_eq_some_iff.mp hcount
        rw [hwords]
        exact .mk hwrites hfits
      · exact nomatch h
    · exact nomatch h
  · generalize l.words = words
    rintro ⟨hwrites, hfits⟩
    simp only [count?_eq_some_iff.mpr ⟨hwrites, hfits⟩]

namespace MapReading

variable {s s' : MapReading} {l : ContentLine}

/-- The class being listed, if one is, has listed what it declares. -/
def Closed (current : Option OpenClass) : Prop := ∀ c ∈ current, c.declared = c.found

theorem close_eq_ok_iff : s.close = .ok () ↔ Closed s.current := by
  unfold close Closed
  cases s.current with
  | none => simp
  | some c =>
    simp only [Option.mem_def, Option.some.injEq, forall_eq']
    split
    · exact ⟨fun _ => ‹_›, fun _ => rfl⟩
    · exact ⟨(nomatch ·), fun h => absurd h ‹_›⟩

/-- What a header leaves. -/
def begun (s : MapReading) (name : String) (declared : Nat) : MapReading where
  map := s.map
  classes := s.classes + 1
  current := some ⟨name, declared, 0⟩

/-- A header is taken in where it is one, once the class before it has listed what it declares. -/
theorem header_eq_ok_iff (hclass : l.words.head? = some "class".toList) :
    s.header l = .ok s' ↔
      Closed s.current ∧ ∃ name n, HeaderLine l.words name n ∧ s' = s.begun name n := by
  unfold header
  rw [bind_eq_ok_iff]
  simp only [← close_eq_ok_iff]
  constructor
  · rintro ⟨⟨⟩, hclosed, h⟩
    refine ⟨hclosed, ?_⟩
    split at h
    · rename_i first name count hwords
      rw [hwords] at hclass ⊢
      obtain rfl := Option.some.inj hclass
      split at h
      · rename_i n hcount
        obtain rfl := Except.ok.inj h
        obtain ⟨hwrites, hfits⟩ := count?_eq_some_iff.mp hcount
        exact ⟨_, n, .mk hwrites hfits, rfl⟩
      · exact nomatch h
    · exact nomatch h
  · rintro ⟨hclosed, name, n, hheader, rfl⟩
    refine ⟨(), hclosed, ?_⟩
    generalize l.words = words at hheader
    obtain ⟨hwrites, hfits⟩ := hheader
    simp only [count?_eq_some_iff.mpr ⟨hwrites, hfits⟩, begun]

/-- What an entry of the class being listed leaves. -/
def listing (s : MapReading) (c : OpenClass) (x : MapEntry) : MapReading where
  map := s.map.insert c.name x.perm x.current (weightOf x.weight)
  classes := s.classes
  current := some { c with found := c.found + 1 }

/-- An entry is taken in where it is one, while a class is being listed. -/
theorem entry_eq_ok_iff (hclass : l.words.head? ≠ some "class".toList) :
    s.entry l = .ok s' ↔
      ∃ c x, s.current = some c ∧ EntryLine l.words x ∧ s' = s.listing c x := by
  unfold entry
  constructor
  · intro h
    split at h
    · rename_i c perm letter weight hcurrent hwords
      rw [hwords] at hclass ⊢
      split at h
      · rename_i current n hletter hweight
        obtain rfl := Except.ok.inj h
        obtain ⟨hwrites, hfits⟩ := weight?_eq_some_iff.mp hweight
        refine ⟨c, ⟨String.ofList perm, current, n⟩, hcurrent, ?_, rfl⟩
        exact .mk (fun heq => hclass (congrArg some heq))
          (Current.ofLetter?_eq_some_iff.mp hletter) hwrites hfits
      · exact nomatch h
    · exact nomatch h
  · rintro ⟨c, x, hcurrent, hentry, rfl⟩
    generalize l.words = words at hentry
    obtain ⟨-, hletter, hwrites, hfits⟩ := hentry
    simp only [hcurrent, Current.ofLetter?_eq_some_iff.mpr hletter,
      weight?_eq_some_iff.mpr ⟨hwrites, hfits⟩, listing]

end MapReading

/-! ## What lines must still list -/

/-- The lines list the rest of the class being listed, and then whole classes. -/
structure Remainder (current : Option OpenClass) (lines : List (List (List Char)))
    (entries : List MapEntry) (classes : List MapClass) : Prop where
  split : ∃ own blocks, lines = own ++ blocks.flatten ∧ List.Forall₂ EntryLine own entries ∧
    List.Forall₂ Block blocks classes
  idle : current = none → entries = []
  counted : ∀ c ∈ current, c.declared = c.found + entries.length

namespace Remainder

variable {current : Option OpenClass} {words : List (List Char)} {lines : List (List (List Char))}
  {entries : List MapEntry} {classes : List MapClass}

theorem nil_iff :
    Remainder current [] entries classes ↔
      MapReading.Closed current ∧ entries = [] ∧ classes = [] := by
  constructor
  · rintro ⟨⟨own, blocks, hlines, hown, hblocks⟩, -, hcounted⟩
    obtain ⟨rfl, hflat⟩ := List.append_eq_nil_iff.mp hlines.symm
    cases hown
    cases hblocks with
    | nil => exact ⟨hcounted, rfl, rfl⟩
    | cons hblock _ =>
      cases hblock
      exact nomatch hflat
  · rintro ⟨hclosed, rfl, rfl⟩
    exact ⟨⟨[], [], rfl, .nil, .nil⟩, fun _ => rfl, hclosed⟩

/-- A header ends the class being listed, and begins another one. -/
theorem header_iff (hclass : words.head? = some "class".toList) :
    Remainder current (words :: lines) entries classes ↔
      MapReading.Closed current ∧ entries = [] ∧ ∃ name n own rest,
        HeaderLine words name n ∧ classes = ⟨name, own⟩ :: rest ∧
        Remainder (some ⟨name, n, 0⟩) lines own rest := by
  constructor
  · rintro ⟨⟨own, blocks, hlines, hown, hblocks⟩, -, hcounted⟩
    cases hown with
    | cons hentry _ =>
      obtain ⟨rfl, -⟩ := List.cons.inj hlines
      exact absurd hclass hentry.head?
    | nil =>
      cases hblocks with
      | nil => exact nomatch hlines
      | @cons _ c _ rest hblock hrest =>
        obtain ⟨hheader, hentries⟩ := hblock
        obtain ⟨rfl, rfl⟩ := List.cons.inj hlines
        refine ⟨hcounted, rfl, c.name, c.entries.length, c.entries, rest, hheader, rfl, ?_⟩
        refine ⟨⟨_, _, rfl, hentries, hrest⟩, nofun, fun x hx => ?_⟩
        obtain rfl := Option.some.inj hx
        exact (Nat.zero_add _).symm
  · rintro ⟨hclosed, rfl, name, n, own, rest, hheader, rfl, ⟨lines', blocks, rfl, hown, hrest⟩, -,
      hcounted⟩
    obtain rfl : n = own.length := (hcounted _ rfl).trans (Nat.zero_add _)
    exact ⟨⟨[], (words :: lines') :: blocks, rfl, .nil, .cons ⟨hheader, hown⟩ hrest⟩, fun _ => rfl,
      hclosed⟩

/-- An entry belongs to the class being listed. -/
theorem entry_iff (hclass : words.head? ≠ some "class".toList) :
    Remainder current (words :: lines) entries classes ↔
      ∃ c x own, current = some c ∧ EntryLine words x ∧ entries = x :: own ∧
        Remainder (some { c with found := c.found + 1 }) lines own classes := by
  constructor
  · rintro ⟨⟨own, blocks, hlines, hown, hblocks⟩, hidle, hcounted⟩
    cases hown with
    | nil =>
      cases hblocks with
      | nil => exact nomatch hlines
      | cons hblock _ =>
        obtain ⟨hheader, -⟩ := hblock
        obtain ⟨rfl, -⟩ := List.cons.inj hlines
        exact absurd hheader.head? hclass
    | @cons _ x _ rest hentry hrest =>
      obtain ⟨rfl, rfl⟩ := List.cons.inj hlines
      cases current with
      | none => exact nomatch hidle rfl
      | some c =>
        refine ⟨c, x, rest, rfl, hentry, rfl, ⟨_, blocks, rfl, hrest, hblocks⟩, nofun, fun d hd => ?_⟩
        obtain rfl := Option.some.inj hd
        have hdeclared := hcounted c rfl
        rw [List.length_cons] at hdeclared
        show c.declared = c.found + 1 + rest.length
        omega
  · rintro ⟨c, x, own, rfl, hentry, rfl, ⟨lines', blocks, rfl, hown, hblocks⟩, -, hcounted⟩
    refine ⟨⟨words :: lines', blocks, rfl, .cons hentry hown, hblocks⟩, nofun, fun d hd => ?_⟩
    obtain rfl := Option.some.inj hd
    have hdeclared : c.declared = c.found + 1 + own.length := hcounted _ rfl
    rw [List.length_cons]
    omega

/-- Where no class is being listed, whole classes must be. -/
theorem none_iff :
    Remainder none lines entries classes ↔
      entries = [] ∧ ∃ blocks, lines = blocks.flatten ∧ List.Forall₂ Block blocks classes := by
  constructor
  · rintro ⟨⟨own, blocks, rfl, hown, hblocks⟩, hidle, -⟩
    obtain rfl := hidle rfl
    cases hown
    exact ⟨rfl, blocks, rfl, hblocks⟩
  · rintro ⟨rfl, blocks, rfl, hblocks⟩
    exact ⟨⟨[], blocks, rfl, .nil, hblocks⟩, fun _ => rfl, nofun⟩

end Remainder

/-! ## Taking in lines -/

namespace PermissionMap

/-- The map with an entry of a class put in. -/
def put (m : PermissionMap) (e : String × MapEntry) : PermissionMap :=
  m.insert e.1 e.2.perm e.2.current (weightOf e.2.weight)

/-- The map with a list of entries put in. -/
def putAll (m : PermissionMap) (l : List (String × MapEntry)) : PermissionMap := l.foldl put m

end PermissionMap

namespace MapReading

/-- The entries that lines list for the class being listed and for the classes after it. -/
def listed (current : Option OpenClass) (entries : List MapEntry) (classes : List MapClass) :
    List (String × MapEntry) :=
  (current.toList.flatMap fun c => (MapClass.mk c.name entries).listed) ++
    classes.flatMap MapClass.listed

theorem listed_header (current : Option OpenClass) (name : String) (n : Nat) (own : List MapEntry)
    (rest : List MapClass) :
    listed current [] (⟨name, own⟩ :: rest) = listed (some ⟨name, n, 0⟩) own rest := by
  cases current <;> simp [listed, MapClass.listed]

/-- **Lines are taken in** without an error, and the last class among them lists what it declares,
exactly where they list a remainder; and then all of that has been put in. -/
theorem foldlM_iff {lines : List ContentLine} {s : MapReading} {m : PermissionMap} {k : Nat} :
    (∃ s', lines.foldlM step s = .ok s' ∧ Closed s'.current ∧ s'.map = m ∧ s'.classes = k) ↔
      ∃ entries classes, Remainder s.current (lines.map ContentLine.words) entries classes ∧
        s.map.putAll (listed s.current entries classes) = m ∧ s.classes + classes.length = k := by
  induction lines generalizing s with
  | nil =>
    simp only [List.map_nil, Remainder.nil_iff]
    constructor
    · rintro ⟨s', h, hclosed, rfl, rfl⟩
      obtain rfl := Except.ok.inj h
      refine ⟨[], [], ⟨hclosed, rfl, rfl⟩, ?_, rfl⟩
      cases hcurrent : s.current <;> rfl
    · rintro ⟨_, _, ⟨hclosed, rfl, rfl⟩, rfl, rfl⟩
      refine ⟨s, rfl, hclosed, ?_, rfl⟩
      cases hcurrent : s.current <;> rfl
  | cons l lines ih =>
    have hfirst : (∃ s', (l :: lines).foldlM step s = .ok s' ∧ Closed s'.current ∧ s'.map = m ∧
        s'.classes = k) ↔
        ∃ s₁, s.step l = .ok s₁ ∧ ∃ entries classes,
          Remainder s₁.current (lines.map ContentLine.words) entries classes ∧
          s₁.map.putAll (listed s₁.current entries classes) = m ∧
          s₁.classes + classes.length = k := by
      simp only [← ih, List.foldlM_cons, bind_eq_ok_iff]
      constructor
      · rintro ⟨s', ⟨s₁, h₁, h'⟩, hrest⟩
        exact ⟨s₁, h₁, s', h', hrest⟩
      · rintro ⟨s₁, h₁, s', h', hrest⟩
        exact ⟨s', ⟨s₁, h₁, h'⟩, hrest⟩
    rw [hfirst, List.map_cons]
    by_cases hclass : l.words.head? = some "class".toList
    · -- a header: what it begins is listed next
      simp only [step, if_pos hclass, header_eq_ok_iff hclass, Remainder.header_iff hclass]
      constructor
      · rintro ⟨_, ⟨hclosed, name, n, hheader, rfl⟩, own, rest, hrest, rfl, rfl⟩
        refine ⟨[], _, ⟨hclosed, rfl, name, n, own, rest, hheader, rfl, hrest⟩, ?_, ?_⟩
        · rw [listed_header s.current name n]
          rfl
        · exact Nat.add_right_comm s.classes rest.length 1
      · rintro ⟨_, _, ⟨hclosed, rfl, name, n, own, rest, hheader, rfl, hrest⟩, rfl, rfl⟩
        refine ⟨_, ⟨hclosed, name, n, hheader, rfl⟩, own, rest, hrest, ?_, ?_⟩
        · rw [listed_header s.current name n]
          rfl
        · exact Nat.add_right_comm s.classes 1 rest.length
    · -- an entry: it is put in, and the class has that much less to list
      simp only [step, if_neg hclass, entry_eq_ok_iff hclass, Remainder.entry_iff hclass]
      constructor
      · rintro ⟨_, ⟨c, x, hcurrent, hentry, rfl⟩, own, rest, hrest, rfl, rfl⟩
        refine ⟨_, rest, ⟨c, x, own, hcurrent, hentry, rfl, hrest⟩, ?_, rfl⟩
        rw [hcurrent]
        rfl
      · rintro ⟨_, rest, ⟨c, x, own, hcurrent, hentry, rfl, hrest⟩, rfl, rfl⟩
        refine ⟨_, ⟨c, x, hcurrent, hentry, rfl⟩, own, rest, hrest, ?_, rfl⟩
        rw [hcurrent]
        rfl

/-- No more is counted than there are lines. -/
theorem counts_le_length {lines : List ContentLine} {s : MapReading}
    (h : lines.foldlM step {} = .ok s) :
    s.classes ≤ lines.length ∧ ∀ c ∈ s.current, c.found ≤ lines.length := by
  induction lines using List.reverseRecOn generalizing s with
  | nil =>
    obtain rfl := Except.ok.inj h
    exact ⟨Nat.zero_le _, nofun⟩
  | append_singleton lines l ih =>
    rw [List.foldlM_append, bind_eq_ok_iff] at h
    obtain ⟨s₁, h₁, h⟩ := h
    obtain ⟨hclasses, hfound⟩ := ih h₁
    rw [List.foldlM_cons, bind_eq_ok_iff] at h
    obtain ⟨s₂, hstep, h⟩ := h
    obtain rfl := Except.ok.inj h
    rw [List.length_append, List.length_singleton]
    unfold step at hstep
    split at hstep
    · obtain ⟨-, name, n, -, rfl⟩ := (header_eq_ok_iff ‹_›).mp hstep
      refine ⟨Nat.succ_le_succ hclasses, fun c hc => ?_⟩
      obtain rfl := Option.some.inj hc
      exact Nat.zero_le _
    · obtain ⟨c, x, hcurrent, -, rfl⟩ := (entry_eq_ok_iff ‹_›).mp hstep
      refine ⟨Nat.le_succ_of_le hclasses, fun d hd => ?_⟩
      obtain rfl := Option.some.inj hd
      exact Nat.succ_le_succ (hfound c hcurrent)

end MapReading

/-! ## What stays in the map -/

namespace PermissionMap

theorem clampWeight_weightOf (n : Int) :
    clampWeight (weightOf n) = UInt32.ofNat (max 1 (min n 10)).toNat := by
  have hnearest : (min (max n (minWeight.toNat : Int)) (maxWeight.toNat : Int)).toNat =
      (max 1 (min n 10)).toNat := by
    have hmin : minWeight.toNat = 1 := rfl
    have hmax : maxWeight.toNat = 10 := rfl
    omega
  have hkept : ∀ k ≤ 10, 1 ≤ k → clampWeight (UInt32.ofNat k) = UInt32.ofNat k := by decide
  unfold weightOf
  rw [hnearest]
  exact hkept _ (by omega) (by omega)

theorem get?_put (m : PermissionMap) (e : String × MapEntry) (cls perm : String) :
    (m.put e).get? cls perm =
      if cls = e.1 ∧ perm = e.2.perm then some e.2.mapping else m.get? cls perm := by
  unfold put MapEntry.mapping
  rw [get?_insert, clampWeight_weightOf]

/-- **Of what is put in for a permission the last stays.** -/
theorem get?_putAll (l : List (String × MapEntry)) (m : PermissionMap) (cls perm : String) :
    (m.putAll l).get? cls perm =
      (((l.filter fun e => cls = e.1 ∧ perm = e.2.perm).getLast?.map fun e => e.2.mapping).or
        (m.get? cls perm)) := by
  induction l using List.reverseRecOn with
  | nil => rfl
  | append_singleton l e ih =>
    have hput : m.putAll (l ++ [e]) = (m.putAll l).put e := List.foldl_concat ..
    rw [hput, get?_put, ih, List.filter_append]
    by_cases he : cls = e.1 ∧ perm = e.2.perm
    · simp [he]
    · simp [he]

/-- The entries for a permission are those in the blocks of its class. -/
theorem filter_listed (classes : List MapClass) (cls perm : String) :
    ((classes.flatMap MapClass.listed).filter fun e => cls = e.1 ∧ perm = e.2.perm).map Prod.snd =
      ((classes.filter fun c => c.name = cls).flatMap MapClass.entries).filter
        fun x => x.perm = perm := by
  induction classes with
  | nil => rfl
  | cons c classes ih =>
    rw [List.flatMap_cons, List.filter_append, List.map_append, ih, List.filter_cons]
    by_cases hname : c.name = cls
    · rw [if_pos (decide_eq_true hname), List.flatMap_cons, List.filter_append]
      subst hname
      simp [MapClass.listed, List.filter_map, Function.comp_def, eq_comm]
    · rw [if_neg (by simpa using hname)]
      have hnone : c.listed.filter (fun e => cls = e.1 ∧ perm = e.2.perm) = [] := by
        refine List.filter_eq_nil_iff.mpr fun e he => ?_
        obtain ⟨x, -, rfl⟩ := List.mem_map.mp he
        simp [Ne.symm hname]
      rw [hnone, List.map_nil, List.nil_append]

variable {m : PermissionMap}

/-- The lines of a map are read as the grammar has them. -/
theorem ofLines_eq_ok_iff {lines : List ContentLine} :
    ofLines lines = .ok m ↔ ∃ classes, MapText (lines.map ContentLine.words) classes ∧
      empty.putAll (classes.flatMap MapClass.listed) = m := by
  cases lines with
  | nil =>
    constructor
    · intro h
      obtain rfl := Except.ok.inj h
      exact ⟨[], .nothing, rfl⟩
    · rintro ⟨classes, hwritten, rfl⟩
      cases hwritten
      rfl
  | cons first rest =>
    have hrest : ofLines (first :: rest) = .ok m ↔ ∃ n, declaredClasses first = .ok n ∧
        ∃ s, rest.foldlM MapReading.step {} = .ok s ∧ MapReading.Closed s.current ∧ s.map = m ∧
          s.classes = n := by
      unfold ofLines
      simp only [bind_eq_ok_iff, ← MapReading.close_eq_ok_iff]
      constructor
      · rintro ⟨n, hn, s, hs, ⟨⟩, hclosed, h⟩
        split at h
        · exact ⟨n, hn, s, hs, hclosed, Except.ok.inj h, Eq.symm ‹_›⟩
        · exact nomatch h
      · rintro ⟨n, hn, s, hs, hclosed, rfl, rfl⟩
        exact ⟨_, hn, s, hs, (), hclosed, if_pos rfl⟩
    rw [hrest, List.map_cons]
    simp only [MapReading.foldlM_iff, declaredClasses_eq_ok_iff]
    constructor
    · rintro ⟨n, hcount, _, classes, hremainder, rfl, rfl⟩
      obtain ⟨rfl, blocks, hblocks, hwritten⟩ := Remainder.none_iff.mp hremainder
      rw [hblocks]
      exact ⟨classes, .classes (Nat.zero_add classes.length ▸ hcount) hwritten, rfl⟩
    · rintro ⟨classes, hwritten, rfl⟩
      generalize rest.map ContentLine.words = lines at hwritten ⊢
      cases hwritten with
      | classes hcount hwritten =>
        exact ⟨_, hcount, [], classes, Remainder.none_iff.mpr ⟨rfl, _, rfl, hwritten⟩, rfl,
          Nat.zero_add _⟩

theorem ofText_eq_ok_iff {text : String} :
    ofText text = .ok m ↔ ∃ classes, MapText ((contents text).map Text.words) classes ∧
      empty.putAll (classes.flatMap MapClass.listed) = m := by
  have hwords : (ContentLine.ofText text).map ContentLine.words = (contents text).map Text.words := by
    rw [← ContentLine.map_content_ofText, List.map_map]
    rfl
  unfold ofText
  rw [ofLines_eq_ok_iff, hwords]

/-- The map of the blocks of a text says of a permission what they list last. -/
theorem get?_listed (classes : List MapClass) (cls perm : String) :
    (empty.putAll (classes.flatMap MapClass.listed)).get? cls perm =
      (lastListed? classes cls perm).map MapEntry.mapping := by
  unfold lastListed?
  rw [get?_putAll, get?_empty, Option.or_none, ← filter_listed, List.getLast?_map, Option.map_map]
  rfl

/-- **The texts that write a map are those of the grammar, and the map is what they list.** Every content
line has the first word that is looked at, and no more classes and entries are counted than there are
lines, so reading a text comes to an end in a map or an error. -/
theorem ofText_exact (text : String) :
    (∀ l ∈ ContentLine.ofText text, l.words ≠ []) ∧
    (∀ (lines : List ContentLine) (s : MapReading), lines.foldlM MapReading.step {} = .ok s →
      s.classes ≤ lines.length ∧ ∀ c ∈ s.current, c.found ≤ lines.length) ∧
    ((∃ m, ofText text = .ok m) ↔ ∃ classes, MapText ((contents text).map Text.words) classes) ∧
    ∀ m classes, ofText text = .ok m → MapText ((contents text).map Text.words) classes →
      ∀ cls perm, m.get? cls perm = (lastListed? classes cls perm).map MapEntry.mapping := by
  refine ⟨fun l hl => ContentLine.words_ne_nil hl, fun lines s => MapReading.counts_le_length, ?_,
    fun m classes h hwritten cls perm => ?_⟩
  · simp only [ofText_eq_ok_iff]
    constructor
    · rintro ⟨m, classes, hwritten, -⟩
      exact ⟨classes, hwritten⟩
    · rintro ⟨classes, hwritten⟩
      exact ⟨_, classes, hwritten, rfl⟩
  · have hlisted := ofText_eq_ok_iff.mpr ⟨classes, hwritten, rfl⟩
    obtain rfl := Except.ok.inj (h.symm.trans hlisted)
    exact get?_listed classes cls perm

example : (ofText "1\nclass file 2\n  read R 99 # heavy\n  read w -3").toOption.bind
    (fun m => m.get? "file" "read") = some ⟨.write, 1⟩ := by
  decide +kernel

end PermissionMap

end PolicyReach
