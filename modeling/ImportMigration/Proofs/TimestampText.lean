import ImportMigration.Timestamp
import Mathlib.Algebra.GroupWithZero.Nat
import Mathlib.Data.List.Induction
import Mathlib.Data.List.TakeWhile

/-! # The text of a timestamp

A moment is read back from its text, whatever its year and however many digits its fraction has;
and whatever is read is a moment.

* `Timestamp.IsMoment`: a date of the calendar and a time of the day.
* `Timestamp.readDigits?_append`, `Timestamp.readDigits?_lt`: the digits that are read, and the
  bound of their value.
* `Timestamp.readTime?`, `Timestamp.parse?_eq`: reading a time of a day, behind a date.
* `Timestamp.parse?_text`: the text of a moment is read as the moment.
* `Timestamp.isMoment_of_parse?`: what is read is a moment. -/

namespace ImportMigration

/-- A digit is no blank. -/
theorem Text.isBlank_of_isDigit {c : Char} (h : c.isDigit = true) : isBlank c = false := by
  have hrange : 48 ≤ c.toNat ∧ c.toNat ≤ 57 := by
    simpa [Char.isDigit, UInt32.le_iff_toNat_le] using h
  simp only [isBlank, Bool.or_eq_false_iff, Bool.and_eq_false_iff, decide_eq_false_iff_not,
    beq_eq_false_iff_ne]
  omega

/-- A text that starts with no blank loses none at its start. -/
theorem Text.trimStart_cons {c : Char} (h : isBlank c = false) (s : List Char) :
    trimStart (c :: s) = c :: s := by
  rw [trimStart, List.dropWhile_cons_of_neg (by simp [h])]

namespace Timestamp

/-- Whether a timestamp is a moment: a date of the calendar and a time of the day, a leap second
included. -/
structure IsMoment (t : Timestamp) : Prop where
  /-- The date is in the calendar. -/
  isDate : isDate t.year t.month t.day = true
  /-- The hour is one of the day. -/
  hour : t.hour < 24
  /-- The minute is one of the hour. -/
  minute : t.minute < 60
  /-- The second is one of the minute, which may end in a leap second. -/
  second : t.second ≤ 60
  /-- The nanosecond is one of the second. -/
  nanosecond : t.nanosecond < 10 ^ 9

instance (t : Timestamp) : Decidable t.IsMoment :=
  decidable_of_iff (isDate t.year t.month t.day = true ∧ t.hour < 24 ∧ t.minute < 60 ∧
      t.second ≤ 60 ∧ t.nanosecond < 10 ^ 9)
    ⟨fun ⟨hdate, hhour, hminute, hsecond, hnano⟩ => ⟨hdate, hhour, hminute, hsecond, hnano⟩,
      fun h => ⟨h.isDate, h.hour, h.minute, h.second, h.nanosecond⟩⟩

/-! ## Digits -/

/-- One more digit counts once, and those before it ten times. -/
theorem digitsValue_concat (digits : List Char) (c : Char) :
    digitsValue (digits ++ [c]) = 10 * digitsValue digits + (c.toNat - 48) := by
  rw [digitsValue, List.foldl_append]
  rfl

/-- Zeros at the start do not count. -/
theorem digitsValue_replicate_append (n : Nat) (digits : List Char) :
    digitsValue (List.replicate n '0' ++ digits) = digitsValue digits := by
  induction n with
  | zero => rfl
  | succ n ih => exact ih

/-- The value of so many digits lies below a power of ten. -/
theorem digitsValue_lt {digits : List Char} (h : ∀ c ∈ digits, c.isDigit = true) :
    digitsValue digits < 10 ^ digits.length := by
  induction digits using List.reverseRecOn with
  | nil => decide
  | append_singleton front c ih =>
    have hfront := ih fun d hd => h d (List.mem_append_left _ hd)
    have hdigit : c.toNat ≤ 57 := by
      have hc := h c (by simp)
      simp only [Char.isDigit, Bool.and_eq_true, decide_eq_true_eq, UInt32.le_iff_toNat_le] at hc
      exact hc.2
    rw [digitsValue_concat, List.length_append, List.length_singleton, Nat.pow_succ]
    omega

/-- **Digits are read up to the width**, or up to what is no digit. -/
theorem readDigits?_append {width : Nat} {digits rest : List Char}
    (h : ∀ c ∈ digits, c.isDigit = true) (hne : digits ≠ []) (hwidth : digits.length ≤ width)
    (hstop : digits.length = width ∨ ∀ c ∈ rest.head?, c.isDigit = false) :
    readDigits? width (digits ++ rest) = some (digitsValue digits, rest) := by
  have hrest : (rest.take (width - digits.length)).takeWhile Char.isDigit = [] := by
    rcases hstop with hfull | hstop
    · simp [hfull]
    · cases rest with
      | nil => simp
      | cons c rest =>
        cases width - digits.length with
        | zero => rfl
        | succ n => simp [hstop c rfl]
  have hread : ((digits ++ rest).take width).takeWhile Char.isDigit = digits := by
    rw [List.take_append, List.take_of_length_le hwidth, List.takeWhile_append_of_pos h, hrest,
      List.append_nil]
  simp only [readDigits?, hread]
  simp [hne]

/-- What is read as digits lies below a power of ten, and what is left is shorter by as many. -/
theorem readDigits?_lt {width n : Nat} {s rest : List Char}
    (h : readDigits? width s = some (n, rest)) :
    n < 10 ^ (s.length - rest.length) ∧ s.length - rest.length ≤ width := by
  simp only [readDigits?] at h
  split_ifs at h
  obtain ⟨rfl, rfl⟩ := Prod.mk.inj (Option.some.inj h)
  have hlength : ((s.take width).takeWhile Char.isDigit).length ≤ min width s.length := by
    simpa using (List.takeWhile_prefix Char.isDigit (l := s.take width)).length_le
  have hread : s.length - (s.drop ((s.take width).takeWhile Char.isDigit).length).length =
      ((s.take width).takeWhile Char.isDigit).length := by
    rw [List.length_drop]
    omega
  rw [hread]
  exact ⟨digitsValue_lt fun c hc => List.mem_takeWhile_imp hc, by omega⟩

/-! ## Numbers of a fixed width -/

/-- A number is written as zeros and its digits. -/
theorem toList_padded (width n : Nat) :
    (padded width n).toList =
      List.replicate (width - (Nat.toDigits 10 n).length) '0' ++ Nat.toDigits 10 n := by
  simp [padded, ← String.length_toList]

/-- A number is written in digits. -/
theorem isDigit_of_mem_padded {width n : Nat} {c : Char} (h : c ∈ (padded width n).toList) :
    c.isDigit = true := by
  rw [toList_padded, List.mem_append] at h
  rcases h with h | h
  · rw [List.eq_of_mem_replicate h]
    rfl
  · exact Nat.isDigit_of_mem_toDigits (by decide) (by decide) h

/-- A number has a digit. -/
theorem padded_ne_nil (width n : Nat) : (padded width n).toList ≠ [] := by
  simp [toList_padded, Nat.toDigits_ne_nil]

/-- The digits of a number are worth the number. -/
theorem digitsValue_padded (width n : Nat) : digitsValue (padded width n).toList = n := by
  rw [toList_padded, digitsValue_replicate_append]
  exact Nat.ofDigitChars_ten_toDigits

/-- A number that fits has as many digits as it is wide. -/
theorem length_padded {width n : Nat} (hwidth : 0 < width) (h : n < 10 ^ width) :
    (padded width n).toList.length = width := by
  have hdigits : (Nat.toDigits 10 n).length ≤ width :=
    (Nat.length_toDigits_le_iff (by decide) hwidth).mpr h
  rw [toList_padded, List.length_append, List.length_replicate]
  omega

/-- A number that fits is read, whatever follows. -/
theorem readDigits?_padded {width n : Nat} (hwidth : 0 < width) (h : n < 10 ^ width)
    (rest : List Char) :
    readDigits? width ((padded width n).toList ++ rest) = some (n, rest) := by
  have hlength := length_padded hwidth h
  rw [readDigits?_append (fun _ => isDigit_of_mem_padded) (padded_ne_nil width n) hlength.le
    (Or.inl hlength), digitsValue_padded]

/-- A number of any size is read up to what is no digit. -/
theorem readDigits?_padded_append {width n bound : Nat} {rest : List Char}
    (hbound : (padded width n).toList.length ≤ bound)
    (hstop : ∀ c ∈ rest.head?, c.isDigit = false) :
    readDigits? bound ((padded width n).toList ++ rest) = some (n, rest) := by
  rw [readDigits?_append (fun _ => isDigit_of_mem_padded) (padded_ne_nil width n) hbound
    (Or.inr hstop), digitsValue_padded]

/-- A text that starts with a number starts with a digit. -/
theorem exists_padded_append (width n : Nat) (rest : List Char) :
    ∃ c more, (padded width n).toList ++ rest = c :: more ∧ c.isDigit = true := by
  obtain ⟨c, more, hcons⟩ := List.exists_cons_of_ne_nil (padded_ne_nil width n)
  have hmem : c ∈ (padded width n).toList := by simp [hcons]
  exact ⟨c, more ++ rest, by rw [hcons, List.cons_append], isDigit_of_mem_padded hmem⟩

/-- No blanks stand before a number. -/
theorem trimStart_padded (width n : Nat) (rest : List Char) :
    Text.trimStart ((padded width n).toList ++ rest) = (padded width n).toList ++ rest := by
  obtain ⟨c, more, hcons, hdigit⟩ := exists_padded_append width n rest
  rw [hcons, Text.trimStart_cons (Text.isBlank_of_isDigit hdigit)]

/-! ## The parts of a text -/

/-- Two digits are read as their number. -/
theorem readPair?_padded {n : Nat} (h : n < 100) (rest : List Char) :
    readPair? ((padded 2 n).toList ++ rest) = some (n, rest) := by
  rw [readPair?, trimStart_padded, readDigits?_padded (by decide) h]

/-- A mark is read. -/
theorem readMark?_cons {mark : Char} (h : Text.isBlank mark = false) (rest : List Char) :
    readMark? mark (mark :: rest) = some rest := by
  simp [readMark?, Text.trimStart_cons h]

/-- A year that starts with a digit has at most four. -/
theorem readYear?_of_isDigit {c : Char} (h : c.isDigit = true) (s : List Char) :
    readYear? (c :: s) = (readDigits? 4 (c :: s)).map fun (n, rest) => ((n : Int), rest) := by
  unfold readYear?
  rw [Text.trimStart_cons (Text.isBlank_of_isDigit h)]
  split
  · rename_i hsign
    obtain ⟨rfl, -⟩ := List.cons.inj hsign
    exact absurd h (by decide)
  · rename_i hsign
    obtain ⟨rfl, -⟩ := List.cons.inj hsign
    exact absurd h (by decide)
  · rfl

/-- **A year is read**, with or without its sign. -/
theorem readYear?_yearText (year : Int) (rest : List Char) :
    readYear? ((yearText year).toList ++ '-' :: rest) = some (year, '-' :: rest) := by
  have hstop : ∀ c ∈ ('-' :: rest).head?, c.isDigit = false := by
    rintro c ⟨⟩
    decide
  have hsigned : ∀ n, readDigits? ((padded 4 n).toList ++ '-' :: rest).length
      ((padded 4 n).toList ++ '-' :: rest) = some (n, '-' :: rest) := fun n =>
    readDigits?_padded_append (by simp) hstop
  rw [yearText]
  split_ifs with hplain hneg
  · rw [Bool.and_eq_true, decide_eq_true_eq, decide_eq_true_eq] at hplain
    have hvalue : (year.toNat : Int) = year := Int.toNat_of_nonneg hplain.1
    obtain ⟨c, more, hcons, hdigit⟩ := exists_padded_append 4 year.toNat ('-' :: rest)
    rw [hcons, readYear?_of_isDigit hdigit, ← hcons, readDigits?_padded (by decide) (by omega)]
    simp only [Option.map_some, hvalue]
  · have hvalue : -(year.natAbs : Int) = year := by omega
    have htext : ("-" ++ padded 4 year.natAbs).toList ++ '-' :: rest =
        '-' :: ((padded 4 year.natAbs).toList ++ '-' :: rest) := by simp
    rw [htext, readYear?, Text.trimStart_cons (by decide)]
    simp only [hsigned, Option.map_some, hvalue]
  · have hvalue : (year.toNat : Int) = year := Int.toNat_of_nonneg (by omega)
    have htext : ("+" ++ padded 4 year.toNat).toList ++ '-' :: rest =
        '+' :: ((padded 4 year.toNat).toList ++ '-' :: rest) := by simp
    rw [htext, readYear?, Text.trimStart_cons (by decide)]
    simp only [hsigned, Option.map_some, hvalue]

/-- A fraction of so many digits is read. -/
theorem readFraction?_padded {width n : Nat} (hwidth : 0 < width) (hle : width ≤ 9)
    (h : n < 10 ^ width) :
    readFraction? (("." ++ padded width n).toList ++ ['Z']) =
      some (n * 10 ^ (9 - width), ['Z']) := by
  have hlength := length_padded hwidth h
  have hread : readDigits? 9 ((padded width n).toList ++ ['Z']) = some (n, ['Z']) :=
    readDigits?_padded_append (by omega) (by simp)
  have htext : ("." ++ padded width n).toList ++ ['Z'] =
      '.' :: ((padded width n).toList ++ ['Z']) := by
    simp
  have hcount : ((padded width n).toList ++ ['Z']).length - ['Z'].length = width := by
    rw [List.length_append, Nat.add_sub_cancel, hlength]
  rw [htext, readFraction?]
  simp only [hread, hcount]
  rfl

/-- **The fraction of a second is read**, however many digits it has. -/
theorem readFraction?_fractionText {nanosecond : Nat} (h : nanosecond < 10 ^ 9) :
    readFraction? ((fractionText nanosecond).toList ++ ['Z']) = some (nanosecond, ['Z']) := by
  rw [fractionText]
  split_ifs with hzero hmilli hmicro
  · rw [hzero]
    rfl
  · rw [readFraction?_padded (by decide) (by decide) (by omega)]
    exact congrArg (fun n => some (n, _)) (by omega)
  · rw [readFraction?_padded (by decide) (by decide) (by omega)]
    exact congrArg (fun n => some (n, _)) (by omega)
  · rw [readFraction?_padded (by decide) (by decide) h, Nat.sub_self, Nat.pow_zero, Nat.mul_one]

/-- What is read as a fraction lies below a second. -/
theorem readFraction?_lt {s rest : List Char} {n : Nat} (h : readFraction? s = some (n, rest)) :
    n < 10 ^ 9 := by
  unfold readFraction? at h
  split at h
  · split at h
    · cases h
    · rename_i digits after hread
      obtain ⟨rfl, -⟩ := Prod.mk.inj (Option.some.inj h)
      obtain ⟨hlt, hle⟩ := readDigits?_lt hread
      exact (Nat.mul_lt_mul_of_pos_right hlt (Nat.pow_pos (by decide))).trans_eq
        (by rw [← Nat.pow_add, Nat.add_sub_cancel' hle])
  · obtain ⟨rfl, -⟩ := Prod.mk.inj (Option.some.inj h)
    decide

/-! ## Whole texts -/

/-- The month and the day of a date have two digits at most. -/
theorem two_digits_of_isDate {year : Int} {month day : Nat} (h : isDate year month day = true) :
    month < 100 ∧ day < 100 := by
  have hdays : daysInMonth year month ≤ 31 := by
    unfold daysInMonth
    split
    · split_ifs <;> decide
    all_goals decide
  simp only [isDate, Bool.and_eq_true, decide_eq_true_eq] at h
  omega

/-- A local time in UTC is the moment itself. -/
theorem IsMoment.ofLocal? {t : Timestamp} (h : t.IsMoment) :
    ofLocal? t.year t.month t.day t.hour t.minute t.second t.nanosecond 0 = some t := by
  obtain ⟨hdate, hhour, hminute, hsecond, -⟩ := h
  have hminutes : (t.hour * 60 + t.minute - 0 : Int) = ((t.hour * 60 + t.minute : Nat) : Int) := by
    omega
  have hday : ((t.hour * 60 + t.minute : Nat) % 1440 : Int).toNat = t.hour * 60 + t.minute := by
    omega
  have hearly : ¬((t.hour * 60 + t.minute : Nat) : Int) < 0 := by omega
  have hlate : ¬1440 ≤ ((t.hour * 60 + t.minute : Nat) : Int) := by omega
  have hparts : (t.hour * 60 + t.minute) / 60 = t.hour ∧
      (t.hour * 60 + t.minute) % 60 = t.minute := by
    omega
  have hvalid : (!Timestamp.isDate t.year t.month t.day || 24 ≤ t.hour || 60 ≤ t.minute ||
      60 < t.second || 1440 ≤ (0 : Int).natAbs) = false := by
    simp only [hdate, Bool.or_eq_false_iff, decide_eq_false_iff_not]
    exact ⟨⟨⟨⟨rfl, by omega⟩, by omega⟩, by omega⟩, by decide⟩
  unfold Timestamp.ofLocal?
  rw [hvalid, if_neg Bool.false_ne_true]
  simp only [hminutes, if_neg hearly, if_neg hlate, hdate, if_true, hday, hparts]

/-- A local time that exists is a moment. -/
theorem isMoment_of_ofLocal? {year : Int} {month day hour minute second nanosecond : Nat}
    {offset : Int} {t : Timestamp} (hnano : nanosecond < 10 ^ 9)
    (h : ofLocal? year month day hour minute second nanosecond offset = some t) : t.IsMoment := by
  unfold Timestamp.ofLocal? at h
  split at h
  · cases h
  · rename_i hvalid
    extract_lets minutes at h
    split at h
    split at h
    · rename_i hdate
      obtain rfl := Option.some.inj h
      simp only [Bool.or_eq_true, decide_eq_true_eq, not_or] at hvalid
      refine ⟨hdate, ?_, Nat.mod_lt _ (by decide), Nat.not_lt.mp hvalid.1.2, hnano⟩
      show (minutes % 1440).toNat / 60 < 24
      omega
    · cases h

/-- Reads the time of a day and the offset of a local time on that day. -/
def readTime? (year : Int) (month day : Nat) (s : List Char) : Option Timestamp := do
  let (hour, s) ← readPair? s
  let s ← readMark? ':' s
  let (minute, s) ← readPair? s
  let s ← readMark? ':' s
  let (second, s) ← readPair? s
  let (nanosecond, s) ← readFraction? s
  let (offset, s) ← readOffset? (Text.trimStart s)
  if (Text.trimStart s).isEmpty then
    ofLocal? year month day hour minute second nanosecond offset
  else none

/-- A timestamp is read as a date, a mark and a time. -/
theorem parse?_eq (source : String) : parse? source = (do
    let (year, s) ← readYear? source.toList
    let s ← readMark? '-' s
    let (month, s) ← readPair? s
    let s ← readMark? '-' s
    let (day, s) ← readPair? s
    match s with
    | c :: rest => if c = 'T' || c = 't' || c = ' ' then readTime? year month day rest else none
    | [] => none) :=
  rfl

/-- **The text of a moment is read as the moment.** -/
theorem parse?_text {t : Timestamp} (h : t.IsMoment) : parse? t.text = some t := by
  obtain ⟨hmonth, hday⟩ := two_digits_of_isDate h.isDate
  have htext : t.text.toList = (yearText t.year).toList ++ '-' :: ((padded 2 t.month).toList ++
      '-' :: ((padded 2 t.day).toList ++ 'T' :: ((padded 2 t.hour).toList ++
        ':' :: ((padded 2 t.minute).toList ++ ':' :: ((padded 2 t.second).toList ++
          ((fractionText t.nanosecond).toList ++ ['Z'])))))) := by
    simp [text]
  have hoffset : readOffset? (Text.trimStart ['Z']) = some (0, []) := rfl
  have hend : (Text.trimStart []).isEmpty = true := rfl
  have hdash : Text.isBlank '-' = false := by decide
  have hcolon : Text.isBlank ':' = false := by decide
  have htime : readTime? t.year t.month t.day ((padded 2 t.hour).toList ++
      ':' :: ((padded 2 t.minute).toList ++ ':' :: ((padded 2 t.second).toList ++
        ((fractionText t.nanosecond).toList ++ ['Z'])))) = some t := by
    simp only [readTime?, Option.bind_eq_bind, Option.bind_some, readMark?_cons hcolon,
      readPair?_padded (h.hour.trans (by decide)), readPair?_padded (h.minute.trans (by decide)),
      readPair?_padded (h.second.trans_lt (by decide)), readFraction?_fractionText h.nanosecond,
      hoffset, hend, if_true]
    exact h.ofLocal?
  simp only [parse?_eq, htext, Option.bind_eq_bind, Option.bind_some, readYear?_yearText,
    readMark?_cons hdash, readPair?_padded hmonth, readPair?_padded hday]
  exact htime

example : parse? "-0004-02-29T23:59:60.120Z" = some ⟨-4, 2, 29, 23, 59, 60, 120000000⟩ := by
  decide +kernel

/-- What is read as a time of a day is a moment. -/
theorem isMoment_of_readTime? {year : Int} {month day : Nat} {s : List Char} {t : Timestamp}
    (h : readTime? year month day s = some t) : t.IsMoment := by
  simp only [readTime?, Option.bind_eq_bind, Option.bind_eq_some_iff, Prod.exists] at h
  obtain ⟨hour, _, -, _, -, minute, _, -, _, -, second, _, -, nanosecond, _, hnano, offset, _, -,
    h⟩ := h
  split_ifs at h
  exact isMoment_of_ofLocal? (readFraction?_lt hnano) h

/-- **What is read is a moment.** -/
theorem isMoment_of_parse? {source : String} {t : Timestamp} (h : parse? source = some t) :
    t.IsMoment := by
  simp only [parse?_eq, Option.bind_eq_bind, Option.bind_eq_some_iff, Prod.exists] at h
  obtain ⟨year, _, -, _, -, month, _, -, _, -, day, _, -, h⟩ := h
  split at h
  · split_ifs at h
    exact isMoment_of_readTime? h
  · cases h

end Timestamp

end ImportMigration
