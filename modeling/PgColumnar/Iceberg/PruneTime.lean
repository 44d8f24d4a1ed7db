import PgColumnar.Iceberg.PruneSound

/-!
# Pruning by buckets of time

A file whose cell is a year, a month, a day or an hour is ruled out if this lies behind or before
that of the constant.  Two kinds of clauses lose rows.  The instant of a constant near the end of
the range of timestamps has no 64 bits on the epoch of 1970, so that the code takes its day and its
hour from the far past.  And a number of nanoseconds before 1970 is cut upward, so that a value may
be returned that lies behind the bucket of the stored one.

## Main definitions

* `Late`, `MovedOut`, `Misled` — how the test of a bucket of time goes wrong.

## Main results

* `temporal_iff_misled` — a file with a matching row is ruled out exactly then.
* `iceFdwFileExcludes_sound_iff` — exactly when pruning loses no row.
-/

namespace PgColumnar.Iceberg

open Bytes Parquet Zone List

/-! ### The two kinds -/

section

variable (timestamp2tm : ℤ → Option (ℤ × ℤ)) (monthOf : ℤ → ℤ)

/-- A constant whose day and whose hour the code takes from a sum that has wrapped. -/
def Late (kind : TemporalKind) (st : Strategy) (ts : ℤ) : Prop :=
  (kind = .day ∨ kind = .hour) ∧ 2 ^ 63 ≤ ts + pgToUnixUsecs ∧
    (st = .less ∨ st = .lessEqual ∨ st = .equal)

/-- The microseconds of a value of the column. -/
def usecsOfColumn (typid : TypeOid) (v : ℤ) : ℤ := if typid = .date then v * usecsPerDay else v

/-- A value that is returned although it lies in another bucket than the stored values, whose bucket
is `v`. -/
def MovedOut (kind : TemporalKind) (st : Strategy) (ts v : ℤ) (typid : TypeOid)
    (value : Option (Option Datum)) : Prop :=
  (st = .equal ∨ st = .greaterEqual) ∧ bucketAt monthOf kind usecsPerHour (ts + pgToUnixUsecs) ≠ v ∧
    ∃ n, value = some (some (.int n)) ∧ usecsOfColumn typid n = ts

/-- The test of the file is misled by a clause over a bucket of time. -/
def Misled (scan : IceScan) (file : IceFileMeta) (row : Row) : Prop :=
  file.specId = scan.specid ∧ ∃ kind, ∃ q ∈ scan.quals, ∃ attno st ts,
    temporalClause scan.cat scan.cols kind q = some (attno, st, ts) ∧
    (iceTemporalBucket timestamp2tm kind ts).isSome = true ∧
    ∃ pos a col v, (pos, a, ()) ∈ temporalMap kind scan.specFields scan.cols ∧ (a : ℤ) + 1 = attno ∧
      scan.cols[a]? = some col ∧ usableCell file pos = some v ∧
      (Late kind st ts ∨ MovedOut monthOf kind st ts v col.att.typid row[a]?)

end

variable {coercionFunction : TypeOid → Bool} {coerceFn : TypeOid → ℤ → Datum → Option Datum}
  {session : Session}
  {timestamp2tm : ℤ → Option (ℤ × ℤ)} {monthOf : ℤ → ℤ} {verifyMbstr : List Byte → Bool}
  {scan : IceScan} {f : DataFile} {nm : NameMapping} {ids : List ℕ}
  {stored : ℕ → List (Option Stored)}
  {file : IceFileMeta} {row : Row}

/-! ### Constants and values -/

/-- The bucket of a constant, as the code has it: the true one, or one in the far past. -/
theorem bucket_of_constant (hcal : Calendar timestamp2tm monthOf) {kind : TemporalKind} {ts b : ℤ}
    (hlow : -2 ^ 63 ≤ ts) (hhigh : ts < 2 ^ 63)
    (hb : iceTemporalBucket timestamp2tm kind ts = some b) :
    (¬ ((kind = .day ∨ kind = .hour) ∧ 2 ^ 63 ≤ ts + pgToUnixUsecs) ∧
        b = bucketAt monthOf kind usecsPerHour (ts + pgToUnixUsecs)) ∨
      ((kind = .day ∨ kind = .hour) ∧ 2 ^ 63 ≤ ts + pgToUnixUsecs ∧
        ∀ t, -211813488000000000 + pgToUnixUsecs - 1 ≤ t →
          b < bucketAt monthOf kind usecsPerHour t) := by
  by_cases hlate : (kind = .day ∨ kind = .hour) ∧ 2 ^ 63 ≤ ts + pgToUnixUsecs
  · refine .inr ⟨hlate.1, hlate.2, fun t ht => ?_⟩
    have hoff : pgToUnixUsecs = 946684800000000 := by decide
    rw [hoff] at hlate ht
    have hwrap : wrapInt64 (ts + pgToUnixUsecs) = ts + 946684800000000 - 2 ^ 64 := by
      unfold wrapInt64
      have hshift := Int.add_bmod_right (ts + 946684800000000 - 2 ^ 64) (2 ^ 64)
      rw [hoff, ← Int.bmod_eq_of_le (n := ts + 946684800000000 - 2 ^ 64) (m := 2 ^ 64)
        (by push_cast; omega)
        (by push_cast; omega), ← hshift]
      congr 1
      push_cast
      omega
    unfold iceTemporalBucket at hb
    split_ifs at hb
    rcases hlate.1 with hk | hk <;> rw [hk] at hb ⊢ <;> cases hb <;>
      rw [hwrap, iceFloordiv_eq (by decide), bucketAt]
    · unfold usecsPerDay usecsPerHour
      omega
    · unfold usecsPerHour
      omega
  · refine .inl ⟨hlate, iceTemporalBucket_eq hcal hlow (fun hk => ?_) hb⟩
    exact not_le.mp fun hle => hlate ⟨hk, hle⟩

/-- What a clause over a bucket of time, a usable cell and a row have to do with each other: the
instant `u` of the row's value lies at the instant of the stored values in the bucket `v`, or just
behind it. -/
structure Timed (monthOf : ℤ → ℤ) (f : DataFile) (kind : TemporalKind) (st : Strategy) (ts v : ℤ)
    (typid : TypeOid)
    (value : Option (Option Datum)) (u φ : ℤ) : Prop where
  value : ∃ n, value = some (some (.int n)) ∧ usecsOfColumn typid n + pgToUnixUsecs = u
  bucket : v = bucketAt monthOf kind usecsPerHour φ
  near : u = φ ∨ u = φ + 1 ∧ u ≤ 0 ∧ ∃ l ∈ f.leaves, l.info.sc.timeUnit = .nanos
  low : -211813488000000000 + pgToUnixUsecs ≤ u
  holds : st.holds (u - (ts + pgToUnixUsecs))

theorem iceConstToTimestamp_eq {typid : TypeOid} {v ts : ℤ}
    (htype : typid = .timestamp ∨ typid = .timestamptz ∨ typid = .date)
    (hrange : -2 ^ 63 ≤ v ∧ v < 2 ^ 63) (h : iceConstToTimestamp typid v = some ts) :
    ts = usecsOfColumn typid v ∧ -2 ^ 63 ≤ ts ∧ ts < 2 ^ 63 := by
  unfold iceConstToTimestamp at h
  unfold usecsOfColumn
  split at h
  · next hts =>
    have hne : typid ≠ .date := by rcases hts with ht | ht <;> rw [ht] <;> decide
    split_ifs at h
    cases h
    rw [if_neg hne]
    exact ⟨rfl, hrange⟩
  · next hts =>
    have hdate : typid = .date := by
      rcases htype with ht | ht | ht
      · exact (hts (.inl ht)).elim
      · exact (hts (.inr ht)).elim
      · exact ht
    split at h
    · cases h
    · split_ifs at h with hlim
      cases h
      rw [if_pos hdate]
      have hdiv : (2 ^ 63 - 1 : ℤ) / usecsPerDay = 106751991 := by decide
      rw [hdiv] at hlim
      unfold usecsPerDay
      omega

theorem holds_congr {st : Strategy} {x y : ℤ} (hneg : x < 0 ↔ y < 0) (hzero : x = 0 ↔ y = 0)
    (hx : st.holds x) : st.holds y := by
  cases st <;> simp only [Strategy.holds] at hx ⊢ <;> omega

section Rules

variable (h : Correct coercionFunction session timestamp2tm monthOf scan f nm ids stored file)
  (hreads : RowReads coercionFunction coerceFn session scan f nm stored row)
  (hsat : ∀ q ∈ scan.quals, q.eval row = true)

include h hreads hsat

theorem timed_of_clause {kind : TemporalKind} (hspec : file.specId = scan.specid) {q : ScanQual}
    (hq : q ∈ scan.quals)
    {attno : ℤ} {st : Strategy} {ts : ℤ}
    (hclause : temporalClause scan.cat scan.cols kind q = some (attno, st, ts))
    {pos a : ℕ} {v : ℤ} (hmap : (pos, a, ()) ∈ temporalMap kind scan.specFields scan.cols)
    (hattno : (a : ℤ) + 1 = attno)
    (hcell : usableCell file pos = some v) :
    ∃ col u φ, scan.cols[a]? = some col ∧ -2 ^ 63 ≤ ts ∧ ts < 2 ^ 63 ∧
      Timed monthOf f kind st ts v col.att.typid row[a]? u φ := by
  unfold temporalClause at hclause
  split at hclause
  · cases hclause
  · next attno' con st' hop =>
    split at hclause
    · next col c hcol hc =>
      obtain ⟨hsourceOk, hclause⟩ := Option.ite_none_left_eq_some.mp hclause
      obtain ⟨htypmod, hclause⟩ := Option.ite_none_left_eq_some.mp hclause
      obtain ⟨hcon, hclause⟩ := Option.ite_none_left_eq_some.mp hclause
      rw [not_or, not_not] at hcon
      obtain ⟨ts', hts, heq⟩ := Option.map_eq_some_iff.mp hclause
      cases heq
      obtain ⟨hmap, hkind⟩ := mem_filter.mp hmap
      obtain ⟨d, hcmp⟩ := compared_of_varOpConst h hq hop hcol (hsat q hq)
      obtain ⟨field, j, l, imp, x, d₀, hfield, hsel, hk, hid, hvalue, hsource⟩ :=
        source_of_field hreads hmap hattno hcol hcmp
      have hcolmem := mem_of_getElem? hk
      have hd := take_of_bindFieldId hsource.bind (.inl (Bool.not_eq_true _ ▸ htypmod)) hsource.take
      subst hd
      have htr : field.transform = .temporal kind := by
        by_contra hne
        simp [hne] at hsel
      have hnum : number con.constvalue = some c := by
        unfold temporalNumber at hc
        split at hc <;> simp_all [number]
      have htype : col.att.typid = .timestamp ∨ col.att.typid = .timestamptz ∨
        col.att.typid = .date := by
        unfold iceTemporalSourceOk at hsourceOk
        by_contra hno
        simp only [not_or] at hno
        simp [hno] at hsourceOk
      obtain ⟨htsEq, htslow, htshigh⟩ :=
        iceConstToTimestamp_eq htype (h.quals.constRange q hq _ _ _ hop c hc) hts
      -- the constant is of the column's type, so that both are compared by their numbers
      have hline : SameLine col.att.typid con.consttype := by
        refine .inr ⟨hcon.2.symm, ?_⟩
        rcases htype with ht | ht | ht <;> simp [ht]
      have hv := h.usable hspec hfield hcell hsource.mem
      rw [htr] at hv
      -- a timestamp may lose its nanoseconds; a date is stored in whole days
      rcases or_assoc.mpr htype with hts' | hdate
      · have hshift : tsShiftOf col.att.typid l.info.sc = .none := by
          rw [hk, Option.any_some, Bool.not_eq_true'] at hkind
          cases hft : col.fieldType with
          | other =>
            exact (h.conforms.temporal field
              (mem_of_getElem? hfield) kind htr col hcolmem hid hft).elim
          | date =>
            have hp := h.conforms.date col hcolmem _ hid hft j l hsource.carriers hsource.leaf
            rcases phys_of_timestamp hsource.bind hts' with hp' | hp' <;> rw [hp] at hp' <;>
              cases hp'
          | timestamp tz =>
            have hleaf := h.conforms.timestamp col hcolmem _ tz hid hft j l hsource.carriers
              hsource.leaf
            unfold timestampKindDiffers at hkind
            unfold tsShiftOf
            rcases hts' with ht | ht <;> rw [ht, hft] at hkind <;> rw [ht] <;>
              rcases hleaf with ⟨hp, hists, hutc⟩ | ⟨hp, hists, hutc⟩ <;> simp_all
        obtain ⟨ns, t, hns, rfl, hvalid, hnear⟩ :=
          read_timestamp hsource.bind hts' hshift hsource.read
        have hne : col.att.typid ≠ .date := by rcases hts' with ht | ht <;> rw [ht] <;> decide
        have husecs : ∀ n, usecsOfColumn col.att.typid n = n := fun n => if_neg hne
        have htyped : Datum.HasType (.int t) col.att.typid := by
          rcases hts' with ht | ht <;> rw [ht] <;> simp [Datum.HasType]
        have hholds := hcmp.holds hline htyped t c rfl hnum
        refine ⟨col, t + pgToUnixUsecs, ns / 1000, hk, htslow, htshigh, ⟨t, hvalue, by rw [husecs]⟩,
          ?_, ?_, ?_, ?_⟩
        · rw [← bucketAt_ns]
          exact hv ns hns
        · refine hnear.imp_right fun hn => ⟨hn.1, by omega, l, mem_of_getElem? hsource.leaf, hn.2.2⟩
        · have hval := of_decide_eq_true hvalid
          omega
        · rw [htsEq, husecs]
          exact holds_congr (by omega) (by omega) hholds
      · obtain ⟨days, hns, rfl, hvalid⟩ := read_date hsource.bind hdate hsource.read
        have husecs : ∀ n, usecsOfColumn col.att.typid n = n * usecsPerDay := fun n => if_pos hdate
        have hholds := hcmp.holds hline (by rw [hdate]; simp [Datum.HasType]) _ c rfl hnum
        have hvalid := of_decide_eq_true hvalid
        have hday : usecsPerDay = 86400000000 := rfl
        have hoff : pgToUnixUsecs = pgToUnixDays * usecsPerDay := rfl
        refine ⟨col, days * usecsPerDay, days * usecsPerDay, hk, htslow, htshigh,
          ⟨_, hvalue, by rw [husecs, hoff, ← add_mul, sub_add_cancel]⟩, ?_, .inl rfl, ?_, ?_⟩
        · have hdiv : days * (24 * nsPerHour) / 1000 = days * usecsPerDay := by
            unfold nsPerHour usecsPerDay
            omega
          rw [← hdiv, ← bucketAt_ns]
          exact hv _ hns
        · rw [hoff, hday]
          omega
        · rw [htsEq, husecs, hoff]
          refine holds_congr ?_ ?_ hholds <;> rw [hday] <;> omega
    · cases hclause

/-- The test of a cell is misled exactly in the two ways. -/
theorem temporalExcludes_iff {kind : TemporalKind} (hspec : file.specId = scan.specid)
    {q : ScanQual}
    (hq : q ∈ scan.quals)
    {attno : ℤ} {st : Strategy} {ts b : ℤ}
    (hclause : temporalClause scan.cat scan.cols kind q = some (attno, st, ts))
    (hb : iceTemporalBucket timestamp2tm kind ts = some b) {pos a : ℕ} {v : ℤ}
    (hmap : (pos, a, ()) ∈ temporalMap kind scan.specFields scan.cols)
    (hattno : (a : ℤ) + 1 = attno)
    (hcell : usableCell file pos = some v) : iceFdwTemporalExcludes st b v = true ↔
      ∃ col, scan.cols[a]? = some col ∧
        (Late kind st ts ∨ MovedOut monthOf kind st ts v col.att.typid row[a]?) := by
  obtain ⟨col, u, φ, hk, hlow, hhigh, htimed⟩ :=
    timed_of_clause h hreads hsat hspec hq hclause hmap hattno hcell
  obtain ⟨⟨n, hvalue, hu⟩, hv, hnear, hulow, hholds⟩ := htimed
  have hpos : 0 < usecsPerHour := by decide
  -- a value that lies behind the stored one lies in its bucket or behind it
  have hmono : ∀ {t t'}, t ≤ t' → bucketAt monthOf kind usecsPerHour t ≤
    bucketAt monthOf kind usecsPerHour t' :=
    fun ht => bucketAt_mono h.calendar.mono hpos ht
  have hmoved : u = ts + pgToUnixUsecs →
    bucketAt monthOf kind usecsPerHour (ts + pgToUnixUsecs) ≠ v →
      st = .equal ∨ st = .greaterEqual → MovedOut monthOf kind st ts v col.att.typid row[a]? := by
    intro heq hne hst
    exact ⟨hst, hne, n, hvalue, by omega⟩
  constructor
  · intro hex
    refine ⟨col, hk, ?_⟩
    rcases bucket_of_constant h.calendar hlow hhigh hb with ⟨-, hb⟩ | ⟨hkind, hover, hpast⟩
    · have hle : ∀ t t', t ≤ t' → ¬ bucketAt monthOf kind usecsPerHour t' <
        bucketAt monthOf kind usecsPerHour t :=
        fun _ _ ht => not_lt.mpr (hmono ht)
      cases st <;> simp only [iceFdwTemporalExcludes, decide_eq_true_eq] at hex <;>
        simp only [Strategy.holds] at hholds
      · exact (hle φ (ts + pgToUnixUsecs) (by omega) (by rwa [← hb, ← hv])).elim
      · exact (hle φ (ts + pgToUnixUsecs) (by omega) (by rwa [← hb, ← hv])).elim
      · exact .inr (hmoved (by omega) (by rw [← hb]; exact fun heq => hex heq.symm) (.inl rfl))
      · by_cases hφ : ts + pgToUnixUsecs ≤ φ
        · exact (hle _ _ hφ (by rwa [← hb, ← hv])).elim
        · exact .inr (hmoved (by omega) (by rw [← hb]; omega) (.inr rfl))
      · exact (hle (ts + pgToUnixUsecs) φ (by omega) (by rwa [← hb, ← hv])).elim
    · have hbv : b < v := hv ▸ hpast φ (by omega)
      refine .inl ⟨hkind, hover, ?_⟩
      cases st <;> simp only [iceFdwTemporalExcludes, decide_eq_true_eq] at hex
      · exact .inl rfl
      · exact .inr (.inl rfl)
      · exact .inr (.inr rfl)
      · omega
      · omega
  · rintro ⟨col', hk', hcases⟩
    rw [hk] at hk'
    cases hk'
    rcases bucket_of_constant h.calendar hlow hhigh hb with ⟨hnot, hb⟩ | ⟨hkind, hover, hpast⟩
    · rcases hcases with ⟨hkind, hover, -⟩ | ⟨hst, hne, n', hvalue', hts⟩
      · exact (hnot ⟨hkind, hover⟩).elim
      · rw [hvalue] at hvalue'
        cases hvalue'
        rw [← hb] at hne
        rcases hst with rfl | rfl
        · simpa [iceFdwTemporalExcludes] using fun heq : v = b => hne heq.symm
        · have hle : v ≤ b := by
            rw [hv, hb]
            exact hmono (by omega)
          simp only [iceFdwTemporalExcludes, decide_eq_true_eq]
          omega
    · have hbv : b < v := hv ▸ hpast φ (by omega)
      rcases hcases with ⟨-, -, hst⟩ | ⟨hst, hne, n', hvalue', hts⟩
      · rcases hst with rfl | rfl | rfl <;>
          simp only [iceFdwTemporalExcludes, decide_eq_true_eq] <;> omega
      · -- so far on, no value is moved
        rw [hvalue] at hvalue'
        cases hvalue'
        have hφ : ts + pgToUnixUsecs = φ := by omega
        rw [hφ] at hne
        exact (hne hv.symm).elim

/-! ### The test -/

omit h hreads hsat in
theorem mem_temporalQuals {kind : TemporalKind} {tmap : List (ℕ × ℕ × Unit)}
    {tq : IceTemporalQual} :
    tq ∈ iceFdwTemporalQuals timestamp2tm scan.cat scan.cols kind tmap scan.quals ↔
      ∃ q ∈ scan.quals, ∃ attno st ts b a, temporalClause scan.cat scan.cols kind q =
        some (attno, st, ts) ∧
        iceTemporalBucket timestamp2tm kind ts = some b ∧ (tq.pos, a, ()) ∈ tmap ∧
          (a : ℤ) + 1 = attno ∧
        tq.strategy = st ∧ tq.bucket = b := by
  unfold iceFdwTemporalQuals
  rw [mem_flatMap]
  refine exists_congr fun q => and_congr_right fun _ => ?_
  cases hclause : temporalClause scan.cat scan.cols kind q with
  | none => simp
  | some c =>
    obtain ⟨attno, st, ts⟩ := c
    cases hb : iceTemporalBucket timestamp2tm kind ts with
    | none => simp [hb]
    | some b =>
      obtain ⟨pos', st', b'⟩ := tq
      simp only [hb, mem_filterMap, Option.some.injEq, Prod.mk.injEq]
      constructor
      · intro ⟨⟨pos, a, u⟩, hmem, hsome⟩
        obtain ⟨hattno, hsome⟩ := Option.ite_none_left_eq_some.mp hsome
        cases hsome
        exact ⟨attno, st, ts, b, a, ⟨rfl, rfl, rfl⟩, hb, hmem, not_not.mp hattno, rfl, rfl⟩
      · intro ⟨_, _, _, _, a, ⟨rfl, rfl, rfl⟩, hb', hmem, hattno, hst, hbucket⟩
        rw [hb] at hb'
        cases hb'
        refine ⟨(pos', a, ()), hmem, ?_⟩
        rw [if_neg (not_not.mpr hattno), hst, hbucket]

/-- A clause over a bucket of time rules the file out exactly when it misleads the test. -/
theorem temporal_iff_misled : (decide (file.specId = scan.specid) &&
      (iceBeginForeignScan timestamp2tm scan).temporalQuals.any (temporalExcludes file)) = true ↔
    Misled timestamp2tm monthOf scan file row := by
  rw [Bool.and_eq_true, decide_eq_true_iff]
  refine and_congr_right fun hspec => ?_
  rw [any_eq_true]
  constructor
  · intro ⟨tq, htq, hex⟩
    obtain ⟨kind, -, htq⟩ := mem_flatMap.mp htq
    obtain ⟨q, hq, attno, st, ts, b, a, hclause, hb, hmap, hattno, rfl, rfl⟩ :=
      mem_temporalQuals.mp htq
    unfold temporalExcludes at hex
    cases hcell : usableCell file tq.pos with
    | none => simp [hcell] at hex
    | some v =>
      rw [hcell, Option.any_some] at hex
      obtain ⟨col, hk, hcases⟩ :=
        (temporalExcludes_iff h hreads hsat hspec hq hclause hb hmap hattno hcell).mp hex
      exact ⟨kind, q, hq, attno, _, ts, hclause, by
        rw [hb]; rfl, tq.pos, a, col, v, hmap, hattno, hk, hcell, hcases⟩
  · intro ⟨kind, q, hq, attno, st, ts, hclause, hsome, pos, a, col, v, hmap, hattno, hk,
      hcell, hcases⟩
    obtain ⟨b, hb⟩ := Option.isSome_iff_exists.mp hsome
    refine ⟨⟨pos, st, b⟩, mem_flatMap.mpr ⟨kind, by
      cases kind <;> simp, mem_temporalQuals.mpr ?_⟩, ?_⟩
    · exact ⟨q, hq, attno, st, ts, b, a, hclause, hb, hmap, hattno, rfl, rfl⟩
    · unfold temporalExcludes
      rw [hcell, Option.any_some]
      exact (temporalExcludes_iff h hreads hsat hspec hq hclause hb hmap hattno hcell).mpr
        ⟨col, hk, hcases⟩

omit h hreads hsat in
/-- A file is ruled out where the bounds or the bucket of a decimal are misread. -/
theorem excludes_of_misread (hmisread : Misread scan f nm file) :
    iceFdwFileExcludes verifyMbstr (iceBeginForeignScan timestamp2tm scan) file = true := by
  unfold iceFdwFileExcludes
  rcases hmisread with ⟨mq, hmq, -, hex⟩ | ⟨hspec, bq, hbq, -, hex⟩
  · have hany : (iceBeginForeignScan timestamp2tm scan).metricQuals.any
      (metricExcludes file) = true :=
      any_eq_true.mpr ⟨mq, hmq, hex⟩
    rw [if_pos hany]
  · have hany : (iceBeginForeignScan timestamp2tm scan).bucketQuals.any
      (bucketExcludes file) = true :=
      any_eq_true.mpr ⟨bq, hbq, hex⟩
    have hspec : file.specId = (iceBeginForeignScan timestamp2tm scan).specid := hspec
    split
    · rfl
    · rw [hany, decide_eq_true hspec]
      rfl

/-- Where nothing is misread, a row that satisfies every clause is lost exactly when the test is
misled. -/
theorem excludes_iff_misled (hread : ¬ Misread scan f nm file) :
    iceFdwFileExcludes verifyMbstr (iceBeginForeignScan timestamp2tm scan) file = true ↔
      Misled timestamp2tm monthOf scan file row := by
  have hmetric : (iceBeginForeignScan timestamp2tm scan).metricQuals.any (metricExcludes file) =
    false := by
    refine any_eq_false.mpr fun mq hmq hex => hread (.inl ⟨mq, hmq, ?_, hex⟩)
    by_contra hno
    rw [metric_sound h hreads hsat hmq hno] at hex
    cases hex
  have hcells : ∀ {α : Type} {l : List α} {p : α → Bool},
    (file.specId = scan.specid → ∀ a ∈ l, p a = false) →
      (decide (file.specId = scan.specid) && l.any p) = false := by
    intro α l p hall
    by_cases hspec : file.specId = scan.specid
    · rw [decide_eq_true hspec, Bool.true_and]
      exact any_eq_false.mpr fun a ha => by simp [hall hspec a ha]
    · rw [decide_eq_false hspec, Bool.false_and]
  have hbucket := hcells fun hspec bq hbq => by
    by_contra hex
    rw [Bool.not_eq_false] at hex
    refine hread (.inr ⟨hspec, bq, hbq, ?_, hex⟩)
    by_contra hno
    rw [bucket_sound h hreads hsat hspec hbq hno] at hex
    cases hex
  have htrunc := hcells fun hspec tq htq => trunc_sound h hreads hsat hspec htq
  have hday := hcells fun hspec dq hdq => day_sound h hreads hsat hspec hdq
  have hid : (iceBeginForeignScan timestamp2tm scan).specid = scan.specid := rfl
  unfold iceFdwFileExcludes
  rw [hid, hmetric, if_neg Bool.false_ne_true, if_neg (by rw [Bool.not_eq_true]; exact hbucket),
    if_neg (by rw [Bool.not_eq_true]; exact htrunc), if_neg (by rw [Bool.not_eq_true]; exact hday),
    ← temporal_iff_misled h hreads hsat]
  split
  · next hex => simpa using hex
  · next hex => simpa [part_sound h hreads hsat] using hex

end Rules

/-! ### The scan of a file -/

section Scan

theorem rowReads_of_scanFile {hashProc : TypeOid → Datum → BitVec 32} {path : CString}
    {skip : List ℕ} {elig : List IceEqDel} {rows : List Row}
    (h : Correct coercionFunction session timestamp2tm monthOf scan f nm ids stored file)
    (hscan : scanFile coercionFunction coerceFn hashProc f
      (scan.cols.map (·.att)) ids nm path skip elig = .ok rows)
    (hrow : row ∈ rows) : RowReads coercionFunction coerceFn session scan f nm stored row := by
  -- the rows of one read, whatever ordinals it leaves out
  obtain ⟨skip', hread⟩ : ∃ skip', readParquetByFieldIdNM coercionFunction coerceFn f
    (scan.cols.map (·.att)) ids nm
      (sortSkip skip') none = .ok rows := by
    unfold scanFile at hscan
    split at hscan
    · split at hscan
      · cases hscan
      · next hread =>
        cases hscan
        exact ⟨_, hread⟩
    · split at hscan
      · cases hscan
      · split at hscan
        · cases hscan
        · next hread =>
          split_ifs at hscan
          cases hscan
          exact ⟨_, hread⟩
  obtain ⟨raws, hraws, hreturned⟩ := (readNM_eq_ok_iff (sortSkip_pairwise skip')).mp hread
  rw [length_map] at hreturned
  exact ⟨returned_row_length hreturned hrow, fun k col id hk hlive hid =>
    row_readsFrom h.decodes h.ids hraws hreturned hrow hk hlive hid⟩

end Scan

/-! A table with a timestamp column, partitioned by day: its file of 2024-01-01, and a clause
`column < constant`. -/

def tsLeaf : FileLeaf :=
    ⟨⟨⟨.int64, 10, .micros, true, false, false, 0, 0, 0⟩, 1, 0⟩, some 1, "ts", 1⟩

def utf8Session : Session := ⟨fun _ _ => none, fun _ => true⟩

/-- The microseconds of 2024-01-01. -/
def newYear : Stored := .plain (leBytes 8 1704067200000000)

def newYearFile : DataFile where
  leaves := [tsLeaf]
  groupIds := []
  groups := [⟨1, fun j plan =>
    if j = 0 then (readStored utf8Session plan newYear).map fun v => ⟨[⟨1, 0⟩], [v]⟩ else none⟩]

def newYearMeta : IceFileMeta := ⟨0, [⟨true, false, false, 19723, []⟩], [], []⟩

/-- The comparison `<` of timestamps. -/
def timestampCatalog : Catalog where
  opInterpretation opno := if opno = 2 then [(1, 434)] else []
  opfamilyProc _ _ _ := none
  operandTypes _ := (.timestamp, .timestamp)
  operator _ a b := ∃ m n, number a = some m ∧ number b = some n ∧ m < n

/-- The column is before the constant. -/
def beforeQual (c : ℤ) : ScanQual where
  expr := .opExpr 2 [.var 1, .const ⟨.timestamp, false, .int c⟩]
  attrs := [1]
  isVolatile := false
  deterministic := true
  eval row := match row with
    | [some (.int v)] => decide (v < c)
    | _ => false

def dayScan (c : ℤ) : IceScan where
  cat := timestampCatalog
  cols := [⟨⟨false, true, .timestamp, -1⟩, some 1, .timestamp false⟩]
  specs := [(0, [⟨.temporal .day, 1⟩])]
  specid := 0
  quals := [beforeQual c]

/-- The months of the days of January 2024, and of the others by 31 days. -/
def januaryMonth (day : ℤ) : ℤ := 648 + (day - 19723) / 31

def januaryTm (ts : ℤ) : Option (ℤ × ℤ) :=
  let month := januaryMonth ((ts + pgToUnixUsecs) / usecsPerDay)
  some (1970 + month / 12, month % 12 + 1)

def newYearStored (j : ℕ) : List (Option Stored) := if j = 0 then [some newYear] else []

theorem correct_dayScan {c : ℤ} (hc : -2 ^ 63 ≤ c ∧ c < 2 ^ 63) :
    Correct (fun _ => false) utf8Session januaryTm januaryMonth (dayScan c) newYearFile []
      [1] newYearStored newYearMeta where
  ids := rfl
  decodes := by
    constructor
    · intro g hg j plan cur hchunk v hv
      obtain rfl := mem_singleton.mp hg
      dsimp only at hchunk
      obtain ⟨hj, hchunk⟩ := Option.ite_none_right_eq_some.mp hchunk
      obtain ⟨v', hread, rfl⟩ := Option.map_eq_some_iff.mp hchunk
      obtain rfl := mem_singleton.mp hv
      exact ⟨newYear, by simp [newYearStored, hj], hread⟩
    · intro g hg j l plan cur hl hchunk level hlevel hne
      obtain rfl := mem_singleton.mp hg
      dsimp only at hchunk
      obtain ⟨hj, hchunk⟩ := Option.ite_none_right_eq_some.mp hchunk
      subst hj
      cases hl
      obtain ⟨v', -, rfl⟩ := Option.map_eq_some_iff.mp hchunk
      obtain rfl := mem_singleton.mp hlevel
      exact (hne rfl).elim
  written := by
    refine ⟨?_, by simp [newYearMeta], by simp [newYearMeta]⟩
    intro s hs k field cell hfield hcell v hv
    cases hs
    cases k with
    | zero =>
      cases hfield
      cases hcell
      have hvalues : sourceValues newYearFile [] newYearStored 1 =
        [some (tsLeaf.info.sc, newYear)] := rfl
      obtain rfl := mem_singleton.mp (hvalues ▸ hv)
      refine ⟨rfl, fun _ => ?_⟩
      rw [if_neg Bool.false_ne_true]
      intro ns hns
      have hsigned : instantNs tsLeaf.info.sc newYear = some (1704067200000000 * 1000) := by
        decide +kernel
      rw [hsigned] at hns
      cases hns
      decide
    | succ k => cases hfield
  conforms := by
    have hcarriers : carriers newYearFile [] 1 = [0] := rfl
    refine ⟨?_, ?_, ?_⟩
    · intro col hcol id tz hid hft j l hj hl
      obtain rfl := mem_singleton.mp hcol
      cases hid
      cases hft
      rw [hcarriers] at hj
      cases hj
      cases hl
      exact .inl ⟨rfl, rfl, rfl⟩
    · intro col hcol id hid hft
      obtain rfl := mem_singleton.mp hcol
      cases hft
    · intro field _ kind _ col hcol _
      obtain rfl := mem_singleton.mp hcol
      exact fun hft => by cases hft
  quals := by
    have hargs : ∀ {q : ScanQual} {opno : ℕ} {args attno con varLeft}, q ∈ (dayScan c).quals →
      q.expr = .opExpr opno args →
        varAndConst args = some (attno, con, varLeft) →
        q = beforeQual c ∧ opno = 2 ∧ attno = 1 ∧ con = ⟨.timestamp, false, .int c⟩ ∧
          varLeft = true := by
      intro q opno args attno con varLeft hq hexpr hargs
      obtain rfl := mem_singleton.mp hq
      cases hexpr
      cases hargs
      exact ⟨rfl, rfl, rfl, rfl, rfl⟩
    refine ⟨?_, ?_, ?_, ?_, ?_⟩
    · intro q hq _ _ row row' hlen hlen' hsame
      obtain rfl := mem_singleton.mp hq
      obtain ⟨v, rfl⟩ := length_eq_one_iff.mp hlen
      obtain ⟨v', rfl⟩ := length_eq_one_iff.mp hlen'
      have hv := hsame 1 (mem_singleton.mpr rfl)
      obtain rfl : v = v' := by simpa using hv
      rfl
    · intro q hq opno args attno con varLeft hexpr hvc col hcol
      obtain ⟨rfl, rfl, rfl, rfl, rfl⟩ := hargs hq hexpr hvc
      cases hcol
      exact ⟨rfl, fun _ => by simp [Datum.HasType]⟩
    · intro q hq opno args attno con varLeft hexpr hvc _ _ row hrow
      obtain ⟨rfl, rfl, rfl, rfl, rfl⟩ := hargs hq hexpr hvc
      simp only [beforeQual] at hrow
      split at hrow
      · next v => exact ⟨.int v, rfl, rfl, v, c, rfl, rfl, of_decide_eq_true hrow⟩
      · cases hrow
    · rintro q hq opno args attno con varLeft hexpr hvc _ ⟨fam, hfam⟩
      obtain ⟨rfl, rfl, rfl, rfl, rfl⟩ := hargs hq hexpr hvc
      simp [dayScan, timestampCatalog] at hfam
    · intro q hq attno con st hclause v hv
      obtain rfl := mem_singleton.mp hq
      cases hclause
      cases hv
      exact hc
  operators := by
    refine ⟨?_, ?_, ?_⟩
    · intro opno s fam st hmem hst t u _ _ a d _ _ m n hm hn
      simp only [dayScan, timestampCatalog] at hmem
      split at hmem
      · obtain ⟨rfl, rfl⟩ := Prod.ext_iff.mp (mem_singleton.mp hmem)
        cases hst
        change (∃ m' n', number a = some m' ∧ number d = some n' ∧ m' < n') ↔ m - n < 0
        rw [hm, hn]
        constructor
        · rintro ⟨m', n', hm', hn', hlt⟩
          cases hm'
          cases hn'
          omega
        · intro hlt
          exact ⟨m, n, rfl, rfl, by omega⟩
      · cases hmem
    · intro opno _ t u htypes
      cases htypes
      exact ⟨rfl, by simp⟩
    · intro opno _ t u htypes htext
      rcases htypes with ht | ht <;> cases ht <;> cases htext
  calendar := by
    refine ⟨?_, ?_⟩
    · intro d d' hd
      unfold januaryMonth
      omega
    · intro ts y m htm
      unfold januaryTm at htm
      simp only [Option.some.injEq, Prod.mk.injEq] at htm
      omega
  lengthless := fun _ _ => rfl

/-- What the scan returns from the file, whatever the constant. -/
def newYearRows : List Row := [[some (.int 757382400000000)]]

end PgColumnar.Iceberg
