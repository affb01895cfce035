import BathyScaphe.Lib.Run
import Mathlib.Data.Rat.Floor
import Mathlib.Tactic.Linarith

/-!
# Today and yesterday

The date formatter keeps the midnight of the day on which it was last computed,
with the time that was left of that day. It is computed anew when the time since
that midnight is more than that, so that a midnight computed late in its day is
computed again soon, and one computed at the very start of its day is kept up to
the start of the next one.

Times are in seconds. A call has one time: it asks for the present more than
once, and time is not taken to pass in between.
-/

namespace BathyScaphe.Composer

structure TodayCache where
  cachedToday : Rat
  cachedYesterday : Rat
  cacheTimer : Rat

inductive DayString where
  | today | yesterday
  /-- The date itself, in the short style. -/
  | date
  deriving DecidableEq

structure FormattingCall where
  now : Rat
  date : Rat

namespace BSDateFormatter

def secondsOfDay : Rat := 60 * 60 * 24

/-- The calendar's start of the day of a time, days being of 24 hours. -/
structure StartsDays (midnight : Rat → Rat) : Prop where
  le : ∀ t, midnight t ≤ t
  lt : ∀ t, t < midnight t + secondsOfDay
  same : ∀ t u, midnight t ≤ u → u < midnight t + secondsOfDay → midnight u = midnight t

section
variable (midnight : Rat → Rat)

/-- The midnight before `now`, the one before that, and what is left of the day. -/
def filled (now : Rat) : TodayCache where
  cachedToday := midnight now
  cachedYesterday := midnight now - secondsOfDay
  cacheTimer := midnight now + secondsOfDay - now

def AppGetBasicDataOfToday (cache : Option TodayCache) (now : Rat) : TodayCache :=
  match cache with
  | none => filled midnight now
  | some c => if now - c.cachedToday > c.cacheTimer then filled midnight now else c

/-- The day of `niceStringFromDate:useTab:`, with a cache that is up to date or not. -/
def dayString (c : TodayCache) (date : Rat) : DayString :=
  if c.cachedToday ≤ date then .today
  else if c.cachedYesterday ≤ date then .yesterday
  else .date

def niceStringFromDate (cache : Option TodayCache) (call : FormattingCall) :
    DayString × TodayCache :=
  let c := AppGetBasicDataOfToday midnight cache call.now
  (dayString c call.date, c)

def dayStrings : Option TodayCache → List FormattingCall → List DayString
  | _, [] => []
  | cache, call :: calls =>
    let (s, c) := niceStringFromDate midnight cache call
    s :: dayStrings (some c) calls

def uncached (call : FormattingCall) : DayString :=
  if midnight call.now ≤ call.date then .today
  else if midnight call.now - secondsOfDay ≤ call.date then .yesterday
  else .date

end

/-- The call is not at the midnight that ends the day of a cache computed at its
very start, for a date of that day or the day before. -/
def KnowsDay (cache : Option TodayCache) (call : FormattingCall) : Prop :=
  ∀ c ∈ cache, c.cacheTimer = secondsOfDay → call.now = c.cachedToday + secondsOfDay →
    call.date < c.cachedYesterday ∨ c.cachedToday + secondsOfDay ≤ call.date

section
variable {midnight : Rat → Rat} {cache : Option TodayCache} {call : FormattingCall}

theorem StartsDays.next (h : StartsDays midnight) (t : Rat) :
    midnight (midnight t + secondsOfDay) = midnight t + secondsOfDay := by
  have hle := h.le (midnight t + secondsOfDay)
  have hlt := h.lt (midnight t + secondsOfDay)
  by_contra hne
  have hbefore : midnight (midnight t + secondsOfDay) < midnight t + secondsOfDay :=
    lt_of_le_of_ne hle hne
  have hafter : midnight t < midnight (midnight t + secondsOfDay) := by linarith
  have hown := h.same _ _ (le_refl (midnight (midnight t + secondsOfDay)))
    (by linarith [h.lt t, h.le t])
  have hday := h.same t _ (le_of_lt hafter) hbefore
  linarith

/-- A cache that is kept is one of the present day, or of the day that ends at
this time and was computed when it began. -/
theorem cache_kept (h : StartsDays midnight) (hpast : filledAt ≤ now)
    (hkept : ¬ now - (filled midnight filledAt).cachedToday >
      (filled midnight filledAt).cacheTimer) :
    midnight now = midnight filledAt ∨
      (now = midnight filledAt + secondsOfDay ∧ filledAt = midnight filledAt) := by
  simp only [filled, gt_iff_lt, not_lt] at hkept
  have hle := h.le filledAt
  rcases lt_or_ge now (midnight filledAt + secondsOfDay) with hsame | hend
  · exact .inl (h.same filledAt now (by linarith) hsame)
  · exact .inr ⟨by linarith, by linarith⟩

/-- At the end of the day of a cache computed when that day began, only dates
that are far enough from it get the right day. -/
theorem dayString_stale_iff (h : StartsDays midnight) (hfilled : filledAt = midnight filledAt)
    (hnow : call.now = midnight filledAt + secondsOfDay) :
    dayString (filled midnight filledAt) call.date = uncached midnight call ↔
      KnowsDay (some (filled midnight filledAt)) call := by
  have hday : (0 : Rat) < secondsOfDay := by norm_num [secondsOfDay]
  have hknows : KnowsDay (some (filled midnight filledAt)) call ↔
      call.date < midnight filledAt - secondsOfDay ∨ midnight filledAt + secondsOfDay ≤
        call.date := by
    constructor
    · exact fun hknows => hknows _ rfl (show midnight filledAt + secondsOfDay - filledAt =
        _ by linarith) hnow
    · rintro hdate c ⟨⟩ - -
      exact hdate
  rw [hknows]
  simp only [dayString, filled, uncached, hnow, h.next, add_sub_cancel_right]
  rcases lt_or_ge call.date (midnight filledAt - secondsOfDay) with hfar | hnear
  · have hbefore : ¬ midnight filledAt ≤ call.date := by linarith
    have hyesterday : ¬ midnight filledAt - secondsOfDay ≤ call.date := by linarith
    have htoday : ¬ midnight filledAt + secondsOfDay ≤ call.date := by linarith
    simp [hfar, hbefore, hyesterday, htoday]
  · rcases lt_or_ge call.date (midnight filledAt + secondsOfDay) with hlt | hge
    · have htoday : ¬ midnight filledAt + secondsOfDay ≤ call.date := by linarith
      have hfar : ¬ call.date < midnight filledAt - secondsOfDay := by linarith
      refine iff_of_false ?_ (by simp [htoday, hfar])
      by_cases hyesterday : midnight filledAt ≤ call.date <;> simp [hyesterday, htoday, hnear]
    · have hstarted : midnight filledAt ≤ call.date := by linarith
      simp [hge, hstarted]

theorem dayString_eq_iff (h : StartsDays midnight)
    (hpast : ∀ c ∈ cache, ∃ filledAt ≤ call.now, c = filled midnight filledAt) :
    (niceStringFromDate midnight cache call).1 = uncached midnight call ↔ KnowsDay cache call := by
  cases cache with
  | none => exact iff_of_true rfl nofun
  | some c =>
    obtain ⟨filledAt, hle, rfl⟩ := hpast c rfl
    simp only [niceStringFromDate, AppGetBasicDataOfToday]
    split
    · rename_i hold
      refine iff_of_true rfl ?_
      rintro c ⟨⟩ htimer hnow
      rw [htimer] at hold
      linarith
    · rename_i hkept
      rcases cache_kept h hle hkept with hsame | ⟨hnow, hfilled⟩
      · refine iff_of_true ?_ ?_
        · rw [uncached, hsame]
          rfl
        · rintro c ⟨⟩ - hnow
          have hlt := h.lt call.now
          rw [hsame] at hlt
          exact absurd hnow (ne_of_lt hlt)
      · exact dayString_stale_iff h hfilled hnow

theorem cache_past (hpast : ∀ c ∈ cache, ∃ filledAt ≤ call.now, c = filled midnight filledAt) :
    ∃ filledAt ≤ call.now,
      (niceStringFromDate midnight cache call).2 = filled midnight filledAt := by
  cases cache with
  | none => exact ⟨call.now, le_refl _, rfl⟩
  | some c =>
    simp only [niceStringFromDate, AppGetBasicDataOfToday]
    split
    · exact ⟨call.now, le_refl _, rfl⟩
    · exact hpast c rfl

theorem dayStrings_eq_iff_of_past (h : StartsDays midnight) {calls : List FormattingCall}
    (hsorted : calls.Pairwise fun call call' => call.now ≤ call'.now)
    (hpast : ∀ call ∈ calls, ∀ c ∈ cache, ∃ filledAt ≤ call.now, c = filled midnight filledAt) :
    dayStrings midnight cache calls = calls.map (uncached midnight) ↔
      Run.Guarded (fun cache call =>
        some (some (niceStringFromDate midnight cache call).2)) KnowsDay
        cache calls := by
  induction calls generalizing cache with
  | nil => exact iff_of_true rfl trivial
  | cons call calls ih =>
    obtain ⟨hfirst, hsorted⟩ := List.pairwise_cons.mp hsorted
    have hcall := hpast call List.mem_cons_self
    obtain ⟨filledAt, hle, hcache⟩ := cache_past hcall
    have hlater : ∀ call' ∈ calls, ∀ c ∈ some (niceStringFromDate midnight cache call).2,
        ∃ filledAt ≤ call'.now, c = filled midnight filledAt := by
      rintro call' hcall' c ⟨⟩
      exact ⟨filledAt, hle.trans (hfirst call' hcall'), hcache⟩
    have hrest := ih hsorted hlater
    simp only [dayStrings, List.map_cons, List.cons.injEq, dayString_eq_iff h hcall, hrest]
    constructor
    · exact fun hknows => Run.guarded_cons rfl hknows.1 hknows.2
    · exact fun hguard => ⟨hguard.1, hguard.2 _ rfl⟩

/-- Calls at non-decreasing times get the days that they would without a cache,
just where none of them is at the end of the day of a cache computed when that
day began, for a date near it. -/
theorem dayStrings_eq_iff (h : StartsDays midnight) (calls : List FormattingCall)
    (hsorted : calls.Pairwise fun call call' => call.now ≤ call'.now) :
    dayStrings midnight none calls = calls.map (uncached midnight) ↔
      Run.Guarded (fun cache call =>
        some (some (niceStringFromDate midnight cache call).2)) KnowsDay
        none calls :=
  dayStrings_eq_iff_of_past h hsorted fun _ _ _ hc => nomatch hc

end

def midnightGMT (t : Rat) : Rat := secondsOfDay * ⌊t / secondsOfDay⌋

theorem midnightGMT_eq {k : Int} (hle : secondsOfDay * k ≤ t)
    (hlt : t < secondsOfDay * k + secondsOfDay) :
    midnightGMT t = secondsOfDay * k := by
  have hday : (0 : Rat) < secondsOfDay := by norm_num [secondsOfDay]
  have hfloor : ⌊t / secondsOfDay⌋ = k := by
    rw [Int.floor_eq_iff, le_div_iff₀ hday, div_lt_iff₀ hday]
    exact ⟨by linarith, by linarith⟩
  rw [midnightGMT, hfloor]

theorem startsDays_midnightGMT : StartsDays midnightGMT := by
  have hday : (0 : Rat) < secondsOfDay := by norm_num [secondsOfDay]
  have hle : ∀ t, midnightGMT t ≤ t := by
    intro t
    have hfloor := (le_div_iff₀ hday).mp (Int.floor_le (t / secondsOfDay))
    unfold midnightGMT
    linarith
  have hlt : ∀ t, t < midnightGMT t + secondsOfDay := by
    intro t
    have hfloor := (div_lt_iff₀ hday).mp (Int.lt_floor_add_one (t / secondsOfDay))
    unfold midnightGMT
    linarith
  exact ⟨hle, hlt, fun t u hstart hend => midnightGMT_eq hstart hend⟩

theorem midnightGMT_first (hle : 0 ≤ t) (hlt : t < secondsOfDay) : midnightGMT t = 0 := by
  have hfirst : midnightGMT t = secondsOfDay * ((0 : Int) : Rat) :=
    midnightGMT_eq (by simpa using hle) (by simpa using hlt)
  simpa using hfirst

/-- A call in the morning, and one at the next midnight for the same date. -/
theorem dayStrings_eq_overnight :
    dayStrings midnightGMT none [⟨10, 0⟩, ⟨86400, 0⟩] =
      [⟨10, 0⟩, ⟨86400, 0⟩].map (uncached midnightGMT) := by
  refine (dayStrings_eq_iff startsDays_midnightGMT _ (by norm_num)).mpr ?_
  refine Run.guarded_cons rfl nofun (Run.guarded_cons rfl ?_ trivial)
  rintro c ⟨⟩ htimer -
  have hmidnight : midnightGMT 10 = 0 :=
    midnightGMT_first (by norm_num) (by norm_num [secondsOfDay])
  norm_num [niceStringFromDate, AppGetBasicDataOfToday, filled, hmidnight] at htimer

/-- A first call at midnight, and one at the next midnight for the same date. -/
theorem dayStrings_ne_midnights :
    dayStrings midnightGMT none [⟨0, 0⟩, ⟨86400, 0⟩] ≠ [⟨0, 0⟩, ⟨86400, 0⟩].map
      (uncached midnightGMT) := by
  have hfirst : midnightGMT 0 = 0 := midnightGMT_first (le_refl 0) (by norm_num [secondsOfDay])
  have hnext : midnightGMT 86400 = 86400 := by
    have hstarted := startsDays_midnightGMT.next 0
    norm_num [hfirst, secondsOfDay] at hstarted
    exact hstarted
  norm_num [dayStrings, niceStringFromDate, AppGetBasicDataOfToday, dayString, filled, uncached,
    hfirst, hnext, secondsOfDay]
  decide

end BSDateFormatter

end BathyScaphe.Composer
