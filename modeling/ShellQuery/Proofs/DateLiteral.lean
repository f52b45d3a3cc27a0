import ShellQuery.Proofs.Instant.DateText
import ShellQuery.Proofs.TaggedText
/-!
# Dates below their tag

`read_date` says of every way to write a date below its tag which instant it is read as: the one
that the calendar has for what is written, if the calendar has one, and none otherwise. Days are
counted from the first of January 1970, one by one along the calendar.
-/

namespace ShellQuery

open Calendar Instant

section
variable {s : List Char} {x : Reading}

namespace Value

/-- A date text is read as its instant if there is such a date, and as a fault otherwise. -/
theorem readMillis_dateText (hs : DateText s x) : readMillis (.text (String.ofList s)) =
    if x.Exists then .ok x.utcMillis else .error (.noDate (String.ofList s)) := by
  obtain ⟨hyear, -, ho⟩ := hs.bounds
  rw [readMillis, String.toList_ofList, readMillis?_dateText hs, millis?_eq hyear ho]
  split_ifs <;> rfl

/-- The tag object of a date that exists becomes its instant. -/
theorem ofTagged_date {t : Instant} (hs : DateText s x) (hx : x.Exists)
    (ht : t.millis = x.utcMillis) :
    ofTagged .date (.text (String.ofList s)) = .ok (.instant t) := by
  rw [ofTagged, readInstant, readMillis_dateText hs, if_pos hx, ← ht]
  simp only [ofMillis?_millis]
  rfl

/-- The tag object of a date that does not exist is a fault. -/
theorem ofTagged_date_eq_error (hs : DateText s x) (hx : ¬x.Exists) :
    ofTagged .date (.text (String.ofList s)) = .error (.noDate (String.ofList s)) := by
  rw [ofTagged, readInstant, readMillis_dateText hs, if_neg hx]
  rfl

end Value

namespace ArgumentText

/-- **All layouts of a date follow the calendar.** A date and a time that exist are read as the
instant that many milliseconds after 1970-01-01T00:00:00Z, rounded down; any other text that is
written in the same way is refused. The days that count are those of the calendar: 1970-01-01 is day
zero, and each date that exists is followed by the date of the next day. -/
theorem read_date :
    ((Date.mk 1970 1 1).dayNumber = 0 ∧
      ∀ d : Date, d.isValid = true → d.next.isValid = true ∧ d.next.dayNumber = d.dayNumber + 1) ∧
    ∀ s x, DateText s x →
      (x.Exists → ∃ t : Instant, t.millis = x.utcMillis ∧
        ∀ text : String, TaggedObject .date s text.toList → read text = .ok [.instant t]) ∧
      (¬x.Exists → ∀ text : String, TaggedObject .date s text.toList →
        read text = .error (.literal ⟨.date, .noDate (String.ofList s)⟩)) := by
  refine ⟨⟨by decide, fun d hd => ⟨isValid_next hd, dayNumber_next hd⟩⟩, fun s x hs => ⟨?_, ?_⟩⟩
  · intro hx
    obtain ⟨t, ht⟩ := exists_instant hs hx
    refine ⟨t, ht, fun text htext => ?_⟩
    rw [read_taggedObject htext, Value.ofTagged_date hs hx ht]
    rfl
  · intro hx text htext
    rw [read_taggedObject htext, Value.ofTagged_date_eq_error hs hx]
    rfl

/-- Before 1970, with more digits than count, and an offset that leads back over the new year. -/
theorem read_date_before_epoch :
    (Date.mk 1970 1 1).dayNumber = 0 ∧
      DateText "1970-01-01T00:59:59.9999+01:30".toList ⟨1970, 1, 1, 0, 59, 59, 999, 5400⟩ ∧
      ∃ t : Instant, t.millis = -1800001 ∧
        read "\x7b$date: '1970-01-01T00:59:59.9999+01:30'\x7d" = .ok [.instant t] := by
  have hday : DayText "1970-01-01".toList ⟨1970, 1, 1⟩ :=
    @DayText.mk 1970 1 1 (by decide) (by decide) (by decide)
  have hminute : MinuteText "00:59".toList 0 59 := @MinuteText.mk 0 59 (by decide) (by decide)
  have hfraction : FractionText ".9999".toList 999 :=
    @FractionText.digits ['9', '9', '9', '9'] (by simp) (List.all_eq_true.1 rfl)
  have hzone : ZoneText "+01:30".toList 5400 :=
    .offset (@OffsetText.colon '+' 1 30 (.inl rfl) (by decide) (by decide))
  have htext : DateText "1970-01-01T00:59:59.9999+01:30".toList
      ⟨1970, 1, 1, 0, 59, 59, 999, 5400⟩ :=
    .second hday hminute (by decide : 59 < 10 ^ 2) hfraction hzone
  obtain ⟨⟨hepoch, -⟩, hread⟩ := read_date
  obtain ⟨t, ht, hobject⟩ := (hread _ _ htext).1 (by decide)
  exact ⟨hepoch, htext, t, ht, hobject _ (TaggedObject.quoted (q := '\'') rfl)⟩

end ArgumentText

end

end ShellQuery
