import PgColumnar.Tier.Check

/-!
# The path check misses no reader

For a table that reads the target, some comparison or the matcher refuses the target, whatever the
directories and the buckets hold.

## Main definitions

* `Comparable`, `ReadsBy` — the spellings that can be compared, and how a table reads a file.

## Main results

* `refuses_of_location`, `refuses_of_object` — the local and the remote case.
* `tierPartition_refuses` — a target that a table reads is refused.
-/

namespace PgColumnar.Tier

open Bytes Iceberg Paths List

/-! ### Folded forms -/

theorem mem_segments {p n : CString} (hn : n ∈ segments p) : slash ∉ n ∧ n ⊆ p := by
  induction hlen : p.length using Nat.strong_induction_on generalizing p with
  | _ len ih =>
    obtain hp | ⟨xs, rest, hxs, rfl⟩ := eq_segment_or p
    · rw [segments_of_notMem hp, mem_singleton] at hn
      subst hn
      exact ⟨hp, List.Subset.refl n⟩
    · rw [segments_append hxs, mem_cons] at hn
      obtain rfl | hn := hn
      · exact ⟨hxs, subset_append_left n _⟩
      · obtain ⟨hslash, hsub⟩ := ih rest.length (by simp [← hlen]; omega) hn rfl
        exact ⟨hslash, fun b hb => mem_append_right xs (mem_cons_of_mem slash (hsub hb))⟩

theorem mem_normal_segments {rooted : Bool} {p n : CString}
    (hn : n ∈ normal period rooted (segments p)) :
    n ≠ [] ∧ slash ∉ n :=
  have hmem := mem_normal hn
  ⟨hmem.2.1, (mem_segments hmem.1).1⟩

/-- No name of the path is a dot name behind backslashes. -/
def NoEscapedDots (p : CString) : Prop := hasGlobMeta p = true → ∀ n ∈ segments p, dotName n = n

theorem pathNames_eq {table : Bool} {p : CString} (h : table = true → NoEscapedDots p) :
    pathNames table p = segments p := by
  unfold pathNames
  split
  · next hmeta => exact (map_congr_left (h hmeta.1 hmeta.2)).trans (map_id _)
  · rfl

theorem remoteText_rooted {p : CString} (h : p.head? = some slash) : remoteText p = false := by
  obtain ⟨rest, rfl⟩ := head?_eq_some_iff.mp h
  rfl

theorem lexical_rooted {table : Bool} {p : CString} (hp : p.head? = some slash)
    (h : table = true → NoEscapedDots p)
    (cwd : Location) :
    lexical table p = text slash period true (p.getLast? == some slash)
      (location slash period cwd p) := by
  have hne : p ≠ [] := fun hnil => by simp [hnil] at hp
  have hremote : ¬ remoteText p = true := by simp [remoteText_rooted hp]
  have hloc : location slash period cwd p = normal period true (segments p) := by
    rw [normal_rooted, location, if_pos hp, segments]
  rw [lexical, if_neg (not_or.mpr ⟨hne, hremote⟩), pathNames_eq h, hloc, beq_iff_eq.mpr hp]

/-- **The folded forms of rooted paths compare as their locations do.** -/
theorem sameOrBelow_lexical {t f : CString} (cwd : Location) {rest : Location}
    (ht : t.head? = some slash)
    (hf : f.head? = some slash) (hdots : NoEscapedDots f) (hlast : t.getLast? ≠ some slash)
    (hloc : location slash period cwd t = location slash period cwd f ++ rest)
    (hplain : rest = [] → f.getLast? ≠ some slash) :
    sameOrBelow (lexical false t) (lexical true f) = true := by
  have hnames : ∀ p : CString, p.head? = some slash → ∀ n ∈ location slash period cwd p, n ≠ [] ∧
    slash ∉ n := by
    intro p hp n hn
    rw [location, if_pos hp, ← normal_rooted] at hn
    exact mem_normal_segments hn
  have htnames := hnames t ht
  rw [lexical_rooted ht (by simp) cwd, lexical_rooted hf (fun _ => hdots) cwd,
    text_rooted (hnames t ht), text_rooted (hnames f hf)]
  rw [hloc] at htnames ⊢
  set base := location slash period cwd f with hbase
  have htrail : (t.getLast? == some slash) = false := by simpa using hlast
  by_cases hrest : rest = []
  · have hflast : (f.getLast? == some slash) = false := by simpa using hplain hrest
    simp [sameOrBelow, hrest, htrail, hflast]
  · have hne : base ++ rest ≠ [] := by simp [hrest]
    have hbelow := trail_isPrefix slash base hrest
    rw [if_neg hne, htrail, sameOrBelow, Bool.or_eq_true]
    right
    by_cases hnil : base = []
    · obtain ⟨n, ns, rfl⟩ := exists_cons_of_ne_nil hrest
      rw [if_pos hnil, hnil]
      simp [below, rtrim, trail_cons, remoteText, rdropWhile_singleton]
      decide
    · obtain ⟨n, ns, hcons⟩ := exists_cons_of_ne_nil hnil
      rw [if_neg hnil, below, rtrim, rdropWhile_trail (hnames f hf)]
      simp only [Bool.and_eq_true, Bool.not_eq_true', isPrefixOf_iff_prefix, bne_iff_ne]
      refine ⟨⟨remoteText_rooted (by simp [hcons, trail_cons]), by simp [hcons, trail_cons]⟩, ?_⟩
      simpa using hbelow

/-! ### Resolved forms -/

/-- A path under the data directory as it is written out. -/
structure ResolvesTo (e : Session) (p p' : CString) : Prop where
  eq : resolved (some e.dataDir) p = some p'
  rooted : p'.head? = some slash
  last : p'.getLast? = p.getLast?
  loc : location slash period e.cwd p' = location slash period e.cwd p
  dots : NoEscapedDots p → NoEscapedDots p'

theorem unescape_eq {w : CString} (h : 92 ∉ w) : unescape w = w := by
  induction w using unescape.induct with
  | case1 => rfl
  | case2 => rfl
  | case3 c rest ih => simp at h
  | case4 b c rest hb ih =>
    rw [unescape, if_neg hb, ih fun hmem => h (mem_cons_of_mem _ hmem)]

theorem hasGlobMeta_append (p q : CString) :
    hasGlobMeta (p ++ q) = (hasGlobMeta p || hasGlobMeta q) := any_append

theorem exists_resolvesTo {e : Session} {p : CString} (hplain : plainDataDir e = true) (hp : p ≠ [])
    (hremote : remoteText p = false) : ∃ p', ResolvesTo e p p' := by
  by_cases hrooted : p.head? = some slash
  · exact ⟨p, by simp [resolved, hrooted], hrooted, rfl, rfl, id⟩
  · simp only [plainDataDir, Bool.and_eq_true, Bool.not_eq_true', beq_iff_eq] at hplain
    obtain ⟨hmeta, hcwd⟩ := hplain
    have htext : e.dataDir = text slash period true false e.cwd := by
      unfold getcwd at hcwd
      split_ifs at hcwd
      exact (Option.some.inj hcwd).symm
    have hhead : e.dataDir.head? = some slash := by
      rw [htext, text_rooted fun m hm => ⟨(e.cwd_names m hm).ne_nil, (e.cwd_names m hm).notMem⟩]
      cases e.cwd with
      | nil => rfl
      | cons n ns => simp [trail_cons]
    have hne : e.dataDir ≠ [] := fun hnil => by simp [hnil] at hhead
    have hfree : ∀ b ∈ e.dataDir, b ∉ ascii "*?[\\" := by simpa using hmeta
    have hnometa : hasGlobMeta e.dataDir = false := by
      rw [hasGlobMeta, any_eq_false]
      intro b hb hmem
      refine hfree b hb ?_
      have hsub : ascii "*?[" ⊆ ascii "*?[\\" := by decide
      exact hsub (of_decide_eq_true hmem)
    refine ⟨e.dataDir ++ slash :: p, by simp [resolved, hp, hrooted, hremote], ?_, ?_, ?_, ?_⟩
    · rw [head?_append_of_ne_nil _ hne, hhead]
    · rw [← singleton_append, ← append_assoc, getLast?_append_of_ne_nil _ hp]
    · rw [location_append hne, htext, location_text e.cwd_names, location, if_neg hrooted]
    · intro hdots hmeta' n hn
      have hglob : hasGlobMeta p = true := by
        have hsplit := hasGlobMeta_append e.dataDir ([slash] ++ p)
        rw [singleton_append, hmeta', hnometa, Bool.false_or] at hsplit
        exact hsplit.symm
      rw [segments, splitOn_append_cons_self, mem_append] at hn
      obtain hn | hn := hn
      · have hescape : 92 ∉ n := fun h92 => hfree 92 ((mem_segments hn).2 h92) (by decide)
        simp [dotName, unescape_eq hescape]
      · exact hdots hglob n hn

/-! ### A relative pattern that is read as a directory -/

/-- The folded form of a relative path names a directory below the working directory. -/
def StaysBelow (p : CString) : Prop :=
  normal period false (segments p) ≠ [] ∧
    (normal period false (segments p)).head? ≠ some (ascii "..")

theorem lexical_relative {table : Bool} {p : CString} (hp : p.head? ≠ some slash) (hne : p ≠ [])
    (hremote : remoteText p = false) (h : table = true → NoEscapedDots p) :
    lexical table p = text slash period false (p.getLast? == some slash)
      (normal period false (segments p)) := by
  have hhead : (p.head? == some slash) = false := by simpa using hp
  rw [lexical, if_neg (by simp [hne, hremote]), pathNames_eq h, hhead]

theorem location_relative {p : CString} (hp : p.head? ≠ some slash) (cwd : Location) :
    location slash period cwd p = follow period cwd (normal period false (segments p)) := by
  rw [follow_normal, location, if_neg hp, segments]

/-- Every text of a location below the directory holds the directory's folded form. -/
theorem isInfix_lexical {t f : CString} {cwd rest : Location} (ht : t ≠ [])
    (hremote : remoteText t = false)
    (hf : f.head? ≠ some slash) (hbelow : StaysBelow f) (hrest : rest ≠ [])
    (hloc : location slash period cwd t = location slash period cwd f ++ rest) :
    trail slash (normal period false (segments f)) ++ [slash] <:+: slash :: lexical false t := by
  obtain ⟨k, names, hf'⟩ := climbs_normal period (segments f)
  have hnames := hf'.isName fun m hm => (mem_segments hm).1
  have hk : k = 0 := by
    by_contra hpos
    obtain ⟨j, rfl⟩ := Nat.exists_eq_succ_of_ne_zero hpos
    exact hbelow.2 (by simp [hf'.1, replicate_succ]; rfl)
  subst hk
  have hfloc : location slash period cwd f = cwd ++ names := by
    rw [location_relative hf, hf'.follow hnames]
    simp
  have hnormal : normal period false (segments f) = names := by simpa using hf'.1
  rw [hfloc] at hloc
  rw [hnormal]
  by_cases hrooted : t.head? = some slash
  · have hvalid : ∀ n ∈ location slash period cwd t, n ≠ [] ∧ slash ∉ n := by
      intro n hn
      rw [location, if_pos hrooted, ← normal_rooted] at hn
      exact mem_normal_segments hn
    rw [lexical_rooted hrooted (by simp) cwd, text_rooted hvalid, hloc, if_neg (by simp [hrest])]
    have hinside := trail_isInfix slash cwd names hrest
    exact (hinside.trans (prefix_append _ _).isInfix).trans (suffix_cons _ _).isInfix
  · obtain ⟨j, ms, ht'⟩ := climbs_normal period (segments t)
    have hms := ht'.isName fun m hm => (mem_segments hm).1
    -- the names behind the two dots end as the location does
    have hends : ms = cwd.drop (cwd.length - j) ++ names ++ rest := by
      have htloc := location_relative hrooted cwd
      rw [hloc, ht'.follow hms] at htloc
      have hsplit := take_append_drop (cwd.length - j) cwd
      refine (append_right_inj (cwd.take (cwd.length - j))).mp ?_
      rw [← htloc, ← append_assoc, ← append_assoc, hsplit]
    have hvalid : ∀ n ∈ normal period false (segments t), n ≠ [] ∧ slash ∉ n :=
      fun n hn => mem_normal_segments hn
    have hne : normal period false (segments t) ≠ [] := by
      rw [ht'.1, hends]
      simp [hrest]
    rw [lexical_relative hrooted ht hremote (by simp), text_relative period hvalid hne, ht'.1,
      hends, ← append_assoc,
      ← append_assoc]
    exact (trail_isInfix slash _ names hrest).trans (prefix_append _ _).isInfix

/-! ### Local paths -/

section Local

variable {p : CString}

/-- A path that the reader opens in the file system. -/
structure IsLocal (p : CString) : Prop where
  unaliased : s3Alias p = p
  remote : pathIsRemote p = false
  text : remoteText p = false
  norm : normPath p = p

theorem caseEq_take_of_isPrefix {scheme : String} (h : (ascii scheme).isPrefixOf p = true) :
    caseEq (p.take scheme.length) (ascii scheme) = true := by
  obtain ⟨rest, rfl⟩ := isPrefixOf_iff_prefix.mp h
  have hlen : (ascii scheme).length = scheme.length := by simp [ascii, String.length_toList]
  rw [← hlen, take_left]
  simp [caseEq]

theorem isLocal_of_alias (h : pathIsRemote (s3Alias p) = false) : IsLocal p := by
  have hself := s3Alias_of_local h
  have halias : pathIsS3Alias p = false := by
    by_contra hs3
    rw [s3Alias, if_pos (by simpa using hs3), pathIsRemote_s3] at h
    cases h
  rw [hself] at h
  have hschemes := h
  simp only [pathIsRemote, any_cons, any_nil, Bool.or_false, Bool.or_eq_false_iff] at hschemes
  obtain ⟨hs3, hgs, haz, hhttps, hhttp⟩ := hschemes
  refine ⟨hself, h, ?_, ?_⟩
  · rw [remoteText, any_eq_false]
    intro scheme hmem hpre
    rw [pathIsRemote, any_eq_false] at h
    exact h scheme hmem (caseEq_take_of_isPrefix hpre)
  · have e1 : "s3://".length = 5 := rfl
    have e2 : "gs://".length = 5 := rfl
    have e3 : "az://".length = 5 := rfl
    have e4 : "https://".length = 8 := rfl
    have e5 : "http://".length = 7 := rfl
    rw [e1] at hs3
    rw [e2] at hgs
    rw [e3] at haz
    rw [e4] at hhttps
    rw [e5] at hhttp
    simp [normPath, hs3, halias, hhttp, hhttps, hgs, haz]

end Local

/-- What the check can compare: no name of a pattern is folded that the directory does not fold, and
a relative pattern stays below the working directory where that cannot be found out. -/
structure Foldable (e : Session) (p : CString) : Prop where
  dots : NoEscapedDots p
  below : e.readsSettings = false → hasGlobMeta p = true → p.head? ≠ some slash → StaysBelow p

section Refuses

variable {e : Session} {r : Row} {localGlob : LocalGlob}

/-- A plain data directory is what the matcher's own question finds out. -/
theorem plainDataDir_of_question (h : pathGlobMatches e (ascii "?") [] = .ok false) :
    plainDataDir e = true := by
  by_contra hplain
  have hquestion : pathGlobMatches e (ascii "?") [] = localGlobMatch e (ascii "?") [] := rfl
  have hbound : localGlobBound (ascii "?") = .ok () := by decide
  rw [hquestion, localGlobMatch, hbound] at h
  rw [if_neg (by decide), if_pos ⟨by decide, hplain⟩] at h
  cases h

/-- A relative pattern that cannot be resolved matches every path. -/
theorem relative_matches {t f : CString} (ht : IsLocal t) (hf : IsLocal f)
    (hlen : t.length < pathMax)
    (hrel : f.head? ≠ some slash) (hmeta : hasGlobMeta f = true) (hplain : plainDataDir e = false) :
    pathGlobMatches e f t ≠ .ok false := by
  rw [pathGlobMatches, hf.unaliased, ht.unaliased, if_neg (by simp [hf.remote]),
    if_neg (by simp [ht.remote, hmeta]),
    localGlobMatch]
  cases hbound : localGlobBound f with
  | error err => exact fun h => by cases h
  | ok _ =>
    rw [if_neg (by omega), if_pos ⟨hrel, by simp [hplain]⟩]
    exact fun h => by cases h

/-- **A target at or below the path of a table is refused.** -/
theorem refuses_of_location {t f : CString} (rest : Location) (htp : r.tp = t) (hfp : r.fp = f)
    (hrtp : r.rtp = resolved e.dd t) (hrfp : r.rfp = resolved e.dd f) (ht : IsLocal t)
    (hf : IsLocal f)
    (htne : t ≠ []) (hfne : f ≠ []) (hlen : t.length < pathMax) (hlast : t.getLast? ≠ some slash)
    (hfold : Foldable e f)
    (hloc : location slash period e.cwd t = location slash period e.cwd f ++ rest)
    (hplain : rest = [] → f.getLast? ≠ some slash ∧ hasGlobMeta f = false) : Refuses e r := by
  have hforms : hitForms r = true → Refuses e r := by
    intro h
    left
    rw [rowHit, if_pos h]
    exact fun heq => by cases heq
  -- the forms under a plain data directory
  have hresolved : e.dd = some e.dataDir → plainDataDir e = true → Refuses e r := by
    intro hdd hdir
    obtain ⟨t', ht'⟩ := exists_resolvesTo (e := e) hdir htne ht.text
    obtain ⟨f', hf'⟩ := exists_resolvesTo (e := e) hdir hfne hf.text
    have hhit := sameOrBelow_lexical e.cwd ht'.rooted hf'.rooted (hf'.dots hfold.dots)
      (by rwa [ht'.last]) (by rw [ht'.loc, hf'.loc, hloc])
        (fun hnil => by rw [hf'.last]; exact (hplain hnil).1)
    have hpair : sameOrBelow? r.nrtp r.nrfp = true := by
      rw [Row.nrtp, Row.nrfp, hrtp, hrfp, hdd, ht'.eq, hf'.eq]
      exact hhit
    apply hforms
    rw [hitForms, hpair, Bool.or_true]
  by_cases hboth : t.head? = some slash ∧ f.head? = some slash
  · have hhit := sameOrBelow_lexical e.cwd hboth.1 hboth.2 hfold.dots hlast hloc fun hnil =>
      (hplain hnil).1
    have hpair : sameOrBelow r.ntp r.nfp = true := by
      rw [Row.ntp, Row.nfp, htp, hfp]
      exact hhit
    apply hforms
    rw [hitForms, hpair]
    simp
  · have hguard : ¬ remoteText r.tp = true ∧ ¬ remoteText r.fp = true ∧ r.tp ≠ [] ∧ r.fp ≠ [] ∧
        (r.tp.head? ≠ some slash ∨ r.fp.head? ≠ some slash) := by
      rw [htp, hfp]
      exact ⟨by simp [ht.text], by simp [hf.text], htne, hfne, not_and_or.mp hboth⟩
    by_cases hhit : hitForms r = true
    · exact hforms hhit
    cases hleft : leftToGlob r with
    | true =>
      simp only [leftToGlob, hfp, Bool.and_eq_true, bne_iff_ne, Bool.not_eq_true',
        decide_eq_false_iff_not] at hleft
      obtain ⟨⟨hmeta, hrel⟩, hinside⟩ := hleft
      have hrest : rest ≠ [] := fun hnil => by simp [(hplain hnil).2] at hmeta
      by_cases hreads : e.readsSettings = true
      · by_cases hdir : plainDataDir e = true
        · exact hresolved (by rw [Session.dd, if_pos hreads]) hdir
        · right
          rw [hfp, htp]
          exact ⟨hmeta, relative_matches ht hf hlen hrel hmeta (by simpa using hdir)⟩
      · -- without the setting the folded form is searched in the target
        have hbelow := hfold.below (by simpa using hreads) hmeta hrel
        have hholds := isInfix_lexical htne ht.text hrel hbelow hrest hloc
        have hvalid : ∀ n ∈ normal period false (segments f), n ≠ [] ∧ slash ∉ n :=
          fun n hn => mem_normal_segments hn
        rw [Row.nfp, Row.ntp, hfp, htp, lexical_relative hrel hfne hf.text fun _ =>
          hfold.dots, rtrim,
          rdropWhile_text_relative hvalid hbelow.1] at hinside
        exact absurd hholds hinside
    | false =>
      have hrule : rowHit e r = e.dd.elim (.ok true) fun _ => pathGlobMatches e (ascii "?") [] := by
        rw [rowHit, if_neg hhit, sessionRule,
          if_pos ⟨hguard.1, hguard.2.1, hguard.2.2.1, hguard.2.2.2.1, hguard.2.2.2.2, by
            simp [hleft]⟩]
        cases e.dd <;> rfl
      by_cases hreads : e.readsSettings = true
      · have hdd : e.dd = some e.dataDir := by rw [Session.dd, if_pos hreads]
        rw [hdd] at hrule
        by_cases hquestion : pathGlobMatches e (ascii "?") [] = .ok false
        · exact hresolved hdd (plainDataDir_of_question hquestion)
        · left
          rwa [hrule]
      · have hdd : e.dd = none := by rw [Session.dd, if_neg hreads]
        rw [hdd] at hrule
        left
        rw [hrule]
        exact fun heq => by cases heq

end Refuses

/-! ### Objects -/

section Objects

variable {p k : CString} {e : Session} {r : Row}

/-- A URL of object storage, its scheme in any case. -/
def IsS3Url (p k : CString) : Prop := ∃ c : Byte, lower c = 115 ∧ p = c :: 51 :: 58 :: 47 :: 47 :: k

theorem lower_eq_iff : ∀ b : Byte, (lower b = 51 ↔ b = 51) ∧ (lower b = 58 ↔ b = 58) ∧
    (lower b = 47 ↔ b = 47) := by
  decide

theorem isS3Url_iff : caseEq (p.take 5) (ascii "s3://") = true ↔ IsS3Url p (p.drop 5) := by
  constructor
  · intro h
    have hmap : (p.take 5).map lower = [115, 51, 58, 47, 47] := of_decide_eq_true h
    match p with
    | [] => exact absurd (congrArg List.length hmap) (by simp)
    | [_] => exact absurd (congrArg List.length hmap) (by simp)
    | [_, _] => exact absurd (congrArg List.length hmap) (by simp)
    | [_, _, _] => exact absurd (congrArg List.length hmap) (by simp)
    | [_, _, _, _] => exact absurd (congrArg List.length hmap) (by simp)
    | c :: b1 :: b2 :: b3 :: b4 :: rest =>
      simp only [take_succ_cons, take_zero, map_cons, map_nil, List.cons.injEq, and_true] at hmap
      obtain ⟨hc, h1, h2, h3, h4⟩ := hmap
      refine ⟨c, hc, ?_⟩
      rw [(lower_eq_iff b1).1.mp h1, (lower_eq_iff b2).2.1.mp h2, (lower_eq_iff b3).2.2.mp h3,
        (lower_eq_iff b4).2.2.mp h4]
      rfl
  · intro h
    obtain ⟨c, hc, heq⟩ := h
    rw [heq]
    refine decide_eq_true ?_
    change [lower c, lower 51, lower 58, lower 47, lower 47] = _
    rw [hc]
    decide

theorem isS3Url_s3 (k : CString) : IsS3Url (ascii "s3://" ++ k) k := ⟨115, by decide, rfl⟩

theorem IsS3Url.caseEq (h : IsS3Url p k) : caseEq (p.take 5) (ascii "s3://") = true := by
  have hdrop : p.drop 5 = k := by
    obtain ⟨c, -, rfl⟩ := h
    rfl
  rw [isS3Url_iff, hdrop]
  exact h

theorem IsS3Url.drop (h : IsS3Url p k) : p.drop 5 = k := by
  obtain ⟨c, -, rfl⟩ := h
  rfl

/-- The third byte is a colon. -/
theorem IsS3Url.not_alias (h : IsS3Url p k) : pathIsS3Alias p = false := by
  obtain ⟨c, hc, rfl⟩ := h
  have hne : ∀ x : CString, (c :: 51 :: 58 :: x).map lower = [lower c, 51, 58] ++ x.map lower :=
    fun x => rfl
  simp only [pathIsS3Alias, Iceberg.caseEq, take_succ_cons, hne, Bool.or_eq_false_iff,
    decide_eq_false_iff_not]
  constructor
  · intro heq
    have hthird := congrArg (fun l => l[2]?) heq
    exact absurd hthird (by simp [ascii, lower])
  · intro heq
    have hthird := congrArg (fun l => l[2]?) heq
    exact absurd hthird (by simp [ascii, lower])

theorem IsS3Url.norm (h : IsS3Url p k) : normPath p = ascii "s3://" ++ k := by
  rw [normPath, if_pos h.caseEq, h.drop]

/-- The check and the reader take the same object from a URL. -/
theorem normPath_of_s3Alias (h : IsS3Url (s3Alias p) k) : normPath p = ascii "s3://" ++ k := by
  by_cases halias : pathIsS3Alias p = true
  · have hk : k = p.drop 6 := by
      have hdrop := h.drop
      rw [s3Alias, if_pos halias] at hdrop
      exact hdrop.symm
    have hnot : ¬ Iceberg.caseEq (p.take 5) (ascii "s3://") = true := by
      intro hs3
      have hno := (isS3Url_iff.mp hs3).not_alias
      rw [halias] at hno
      cases hno
    rw [normPath, if_neg hnot, if_pos halias, hk]
  · rw [s3Alias, if_neg halias] at h
    exact h.norm

theorem IsS3Url.remoteGlobStart_iff (h : IsS3Url p k) :
    remoteGlobStart p ≠ none ↔ ∃ key, k.dropWhile (· != slash) = slash :: key ∧
      hasGlobMeta key = true := by
  rw [remoteGlobStart, if_pos h.caseEq, h.drop]
  cases hkey : k.dropWhile (· != slash) with
  | nil => simp
  | cons b key =>
    have hb : b = slash := by
      have hhead := head?_dropWhile_not (· != slash) k
      rw [hkey] at hhead
      simpa using hhead
    subst hb
    by_cases hmeta : hasGlobMeta key = true
    · simp [hmeta]
    · simp [hmeta]

theorem IsS3Url.remoteGlobBound (h : IsS3Url p k) :
    remoteGlobBound p = globBound (ascii "s3://" ++ k) ((ascii "s3://" ++ k).count 42) := by
  obtain ⟨c, hc, rfl⟩ := h
  have hstar : c ≠ 42 := by
    intro heq
    subst heq
    exact absurd hc (by decide)
  have hcount : (c :: 51 :: 58 :: 47 :: 47 :: k).count 42 = (ascii "s3://" ++ k).count 42 := by
    rw [count_cons_of_ne hstar]
    exact (count_cons_of_ne (by decide)).symm
  rw [Tier.remoteGlobBound, hcount]
  rfl

theorem IsS3Url.schemeLength (h : IsS3Url p k) : schemeLength p = 5 := by
  obtain ⟨c, hc, rfl⟩ := h
  have hcolon : c ≠ 58 := by
    intro heq
    subst heq
    exact absurd hc (by decide)
  have hfind : (c :: 51 :: 58 :: 47 :: 47 :: k).tails.find?
    (fun tail => (ascii "://").isPrefixOf tail) =
      some (58 :: 47 :: 47 :: k) := by
    have hfirst : (ascii "://").isPrefixOf (c :: 51 :: 58 :: 47 :: 47 :: k) = false := by
      change ((58 : Byte) == c && _) = false
      rw [beq_false_of_ne hcolon.symm, Bool.false_and]
    rw [tails_cons, find?_cons_of_neg (by rw [hfirst]; exact Bool.false_ne_true)]
    rfl
  rw [Tier.schemeLength, hfind]
  simp only [length_cons]
  omega

/-- The matcher on an object is the reader's own. -/
theorem IsS3Url.remoteGlobMatch (h : IsS3Url p k) (fnmatch : CString → CString → Bool)
    (o : CString) :
    remoteGlobMatch fnmatch p (ascii "s3://" ++ o) = fnmatch k o := by
  have hlen : ¬ (ascii "s3://" ++ o).length < 5 := by
    rw [length_append]
    exact Nat.not_lt.mpr (Nat.le_add_right 5 _)
  have hcase : Iceberg.caseEq ((ascii "s3://" ++ o).take 5) (p.take 5) = true := by
    obtain ⟨c, hc, rfl⟩ := h
    refine decide_eq_true ?_
    change _ = [lower c, lower 51, lower 58, lower 47, lower 47]
    rw [hc]
    rfl
  rw [Tier.remoteGlobMatch, h.schemeLength,
    if_neg (by rw [hcase, not_or]; exact ⟨hlen, by simp⟩), h.drop]
  rfl

theorem hasGlobMeta_of_key {key : CString} (h : k.dropWhile (· != slash) = slash :: key)
    (hmeta : hasGlobMeta key = true) : hasGlobMeta (ascii "s3://" ++ k) = true := by
  rw [hasGlobMeta_append, ← takeWhile_append_dropWhile (p := (· != slash)) (l := k),
    hasGlobMeta_append, h,
    ← singleton_append, hasGlobMeta_append, hmeta]
  simp

/-- **An object that a table reads is refused.** -/
theorem refuses_of_object {path o : CString} (htp : r.tp = ascii "s3://" ++ o)
    (hfp : r.fp = ascii "s3://" ++ k)
    (hs3 : IsS3Url path k)
    (hread : k = o ∨ ((ascii "s3://" ++ k).getLast? = some slash ∧ k <+: o) ∨
      (remoteGlobStart path ≠ none ∧ remoteGlobBound path = .ok () ∧
        remoteGlobMatch e.fnmatch path (ascii "s3://" ++ o) = true)) : Refuses e r := by
  have hforms : hitForms r = true → Refuses e r := by
    intro h
    left
    rw [rowHit, if_pos h]
    exact fun heq => by cases heq
  obtain rfl | ⟨hlast, hpre⟩ | ⟨hstart, hbound, hmatch⟩ := hread
  · apply hforms
    simp [hitForms, htp, hfp]
  · apply hforms
    obtain ⟨rest, rfl⟩ := hpre
    have hremote : remoteText (ascii "s3://" ++ k) = true := rfl
    have hbelow : (ascii "s3://" ++ k).isPrefixOf (ascii "s3://" ++ (k ++ rest)) = true := by
      rw [ isPrefixOf_iff_prefix, ← append_assoc]
      exact prefix_append _ _
    simp only [hitForms, htp, hfp, hremote, hlast, hbelow]
    simp
  · right
    obtain ⟨key, hkey, hmeta⟩ := hs3.remoteGlobStart_iff.mp hstart
    refine ⟨by rw [hfp, hasGlobMeta_of_key hkey hmeta], ?_⟩
    have hnorm := isS3Url_s3 k
    have hself : ∀ x : CString, s3Alias (ascii "s3://" ++ x) = ascii "s3://" ++ x := by
      intro x
      rw [s3Alias, if_neg (by simp [(isS3Url_s3 x).not_alias])]
    have hstart' := hnorm.remoteGlobStart_iff.mpr ⟨key, hkey, hmeta⟩
    rw [hs3.remoteGlobBound] at hbound
    rw [hs3.remoteGlobMatch] at hmatch
    rw [hfp, htp, pathGlobMatches, hself, hself, if_pos (pathIsRemote_s3 k),
      if_neg (by simp [hstart', pathIsRemote_s3]), hnorm.remoteGlobBound, hbound]
    rw [hnorm.remoteGlobMatch, hmatch]
    exact fun heq => by cases heq

end Objects

/-! ### The location of an Iceberg table -/

theorem cutLast_eq (m : CString) : cutLast m = iceDirname m := by
  unfold cutLast iceDirname
  by_cases h : slash ∉ m
  · rw [if_pos h, if_pos h]
  · rw [if_neg h, if_neg h]
    by_cases htail : slash ∉ m.tail
    · have hhead : m.head? = some slash := by
        cases m with
        | nil => exact absurd not_mem_nil h
        | cons b rest =>
          obtain heq | hmem := mem_cons.mp (not_not.mp h)
          · simp [heq]
          · exact absurd hmem htail
      rw [if_pos htail, if_pos ⟨hhead, htail⟩]
    · rw [if_neg htail, if_neg fun hand => htail hand.2]

/-- What stands before the last separator. -/
def beforeLast (x : CString) : CString := (x.rdropWhile (· != slash)).dropLast

theorem iceDirname_append {q x : CString} (hq : q ≠ []) (hx : slash ∈ x) :
    iceDirname (q ++ x) = q ++ beforeLast x := by
  obtain ⟨b, q', rfl⟩ := exists_cons_of_ne_nil hq
  have hcut : (b :: q' ++ x).rdropWhile (· != slash) = b :: q' ++ x.rdropWhile (· != slash) := by
    rw [List.rdropWhile, reverse_append, dropWhile_append, if_neg, reverse_append, reverse_reverse,
      List.rdropWhile]
    simpa using hx
  have hne : x.rdropWhile (· != slash) ≠ [] := by
    rw [Ne, rdropWhile_eq_nil_iff]
    exact fun hall => by simpa using hall slash hx
  rw [iceDirname, if_neg (by simp [hx]), if_neg (by simp [hx]), hcut, dropLast_append_of_ne_nil hne]
  rfl

variable {m : CString}

/-- Under an alias the reader and the check cut the same key, as long as a bucket is left. -/
theorem iceActualLocation_alias (halias : pathIsS3Alias m = true)
    (hremote : pathIsRemote (iceActualLocation m) = true) :
    ∃ k, iceActualLocation m = ascii "s3://" ++ k ∧ cutLast (cutLast m) = m.take 6 ++ k := by
  have htake : m.take 6 ≠ [] := by
    intro hnil
    rw [pathIsS3Alias, hnil] at halias
    exact absurd halias (by decide)
  have hs3 : ascii "s3://" ≠ [] := by decide
  have hcut : ∀ x, slash ∉ x → iceDirname (ascii "s3://" ++ x) = ascii "s3:/" := by
    intro x hx
    have hdrop : (ascii "s3://" ++ x).rdropWhile (· != slash) = ascii "s3://" := by
      have hnil : x.reverse.dropWhile (· != slash) = [] := by
        rw [dropWhile_eq_nil_iff]
        exact fun b hb => slash_bne_of_notMem hx b (mem_reverse.mp hb)
      rw [List.rdropWhile, reverse_append, dropWhile_append, hnil]
      rfl
    have hmem : slash ∈ (ascii "s3://" ++ x).tail := by
      change slash ∈ ascii "3://" ++ x
      exact mem_append_left x (by decide)
    rw [iceDirname, if_neg (not_not.mpr (mem_of_mem_tail hmem)), if_neg (not_not.mpr hmem), hdrop]
    rfl
  have hloc : iceActualLocation m = iceDirname (iceDirname (ascii "s3://" ++ m.drop 6)) := by
    rw [iceActualLocation, s3Alias, if_pos halias]
  have h1 : slash ∈ m.drop 6 := by
    by_contra hno
    rw [hloc, hcut _ hno] at hremote
    exact absurd hremote (by decide)
  rw [iceDirname_append hs3 h1] at hloc
  have h2 : slash ∈ beforeLast (m.drop 6) := by
    by_contra hno
    rw [hloc, hcut _ hno] at hremote
    exact absurd hremote (by decide)
  refine ⟨beforeLast (beforeLast (m.drop 6)), by rw [hloc, iceDirname_append hs3 h2], ?_⟩
  have hfirst := iceDirname_append htake h1
  rw [take_append_drop] at hfirst
  rw [cutLast_eq, cutLast_eq, hfirst, iceDirname_append htake h2]

theorem iceDirname_cases (x : CString) :
    iceDirname x ≠ [] ∧ (iceDirname x = ascii "." ∨ iceDirname x = ascii "/" ∨
      iceDirname x <+: x) := by
  unfold iceDirname
  by_cases h1 : slash ∉ x
  · rw [if_pos h1]
    exact ⟨by decide, .inl rfl⟩
  by_cases h2 : slash ∉ x.tail
  · rw [if_neg h1, if_pos h2]
    exact ⟨by decide, .inr (.inl rfl)⟩
  rw [if_neg h1, if_neg h2]
  refine ⟨?_, .inr (.inr (( dropLast_prefix _).trans ( rdropWhile_prefix _ _)))⟩
  intro hnil
  -- the last separator is not the first byte
  have hsplit : x.rdropWhile (· != slash) ++ x.rtakeWhile (· != slash) = x :=
    rdropWhile_append_rtakeWhile
  have htail : slash ∉ x.rtakeWhile (· != slash) := fun hmem => by
    simpa using mem_rtakeWhile_imp hmem
  refine h2 ?_
  rw [← hsplit]
  match hfront : x.rdropWhile (· != slash) with
  | [] => exact fun hmem => htail (mem_of_mem_tail hmem)
  | [b] => exact htail
  | b :: c :: front =>
    rw [hfront] at hnil
    cases hnil

/-! ### Names of schemes -/

def schemes : List String := ["s3://", "gs://", "az://", "https://", "http://", "s3a://", "s3n://"]

/-- No scheme begins the path. -/
def NoScheme (p : CString) : Prop :=
    ∀ scheme ∈ schemes, caseEq (p.take scheme.length) (ascii scheme) = false

theorem noScheme_iff {p : CString} : NoScheme p ↔ pathIsRemote p = false ∧
    pathIsS3Alias p = false := by
  simp only [NoScheme, schemes, forall_mem_cons, pathIsRemote, pathIsS3Alias, any_cons, any_nil,
    Bool.or_eq_false_iff]
  constructor
  · intro h
    exact ⟨⟨h.1, h.2.1, h.2.2.1, h.2.2.2.1, h.2.2.2.2.1, trivial⟩, h.2.2.2.2.2.1, h.2.2.2.2.2.2.1⟩
  · intro h
    exact ⟨h.1.1, h.1.2.1, h.1.2.2.1, h.1.2.2.2.1, h.1.2.2.2.2.1, h.2.1, h.2.2, by simp⟩

theorem NoScheme.isLocal {p : CString} (h : NoScheme p) : IsLocal p := by
  obtain ⟨hremote, halias⟩ := noScheme_iff.mp h
  refine isLocal_of_alias ?_
  rwa [s3Alias, if_neg (by simp [halias])]

theorem length_of_caseEq {a : CString} (scheme : String) (h : caseEq a (ascii scheme) = true) :
    a.length = scheme.length := by
  have hmap : a.map lower = (ascii scheme).map lower := of_decide_eq_true h
  have hlen := congrArg List.length hmap
  simpa [ascii, String.length_toList] using hlen

/-- A scheme that begins a part of the path begins the path. -/
theorem caseEq_of_isPrefix {p q : CString} (scheme : String) (hpq : p <+: q)
    (h : caseEq (p.take scheme.length) (ascii scheme) = true) :
    caseEq (q.take scheme.length) (ascii scheme) = true := by
  obtain ⟨rest, rfl⟩ := hpq
  have hlen := length_of_caseEq scheme h
  rw [length_take] at hlen
  rwa [take_append_of_le_length (by omega)]

theorem pathIsS3Alias_of_isPrefix {p q : CString} (hpq : p <+: q) (h : pathIsS3Alias p = true) :
    pathIsS3Alias q = true := by
  rw [pathIsS3Alias, Bool.or_eq_true] at h ⊢
  exact h.imp (caseEq_of_isPrefix "s3a://" hpq) (caseEq_of_isPrefix "s3n://" hpq)

theorem noScheme_iceDirname (hm : pathIsS3Alias m = false)
    (hremote : pathIsRemote (iceActualLocation m) = false) : NoScheme (iceActualLocation m) := by
  have hback : ∀ x, pathIsS3Alias (iceDirname x) = true → pathIsS3Alias x = true := by
    intro x hx
    obtain ⟨-, heq | heq | hpre⟩ := iceDirname_cases x
    · rw [heq] at hx
      exact absurd hx (by decide)
    · rw [heq] at hx
      exact absurd hx (by decide)
    · exact pathIsS3Alias_of_isPrefix hpre hx
  have hloc : iceActualLocation m = iceDirname (iceDirname m) := by
    rw [iceActualLocation, s3Alias, if_neg (by simp [hm])]
  refine noScheme_iff.mpr ⟨hremote, ?_⟩
  by_contra halias
  rw [hloc] at halias
  have hm' := hback m (hback _ (by simpa using halias))
  rw [hm] at hm'
  cases hm'

/-- A scheme ends in two separators. -/
theorem NoScheme.concat {d : CString} (h : NoScheme d) (hlast : d.getLast? ≠ some slash) :
    NoScheme (d ++ [slash]) := by
  intro scheme hmem
  by_contra hcase
  have hmatch : caseEq ((d ++ [slash]).take scheme.length) (ascii scheme) = true := by
    simpa using hcase
  have hlen := length_of_caseEq scheme hmatch
  rw [length_take, length_append, length_singleton] at hlen
  by_cases hle : scheme.length ≤ d.length
  · rw [take_append_of_le_length hle, h scheme hmem] at hmatch
    cases hmatch
  · have hends : ∀ x ∈ schemes, ∃ front, (ascii x).map lower = front ++ [47, 47] := by
      intro x hx
      simp only [schemes, mem_cons, not_mem_nil, or_false] at hx
      refine ⟨((ascii x).map lower).dropLast.dropLast, ?_⟩
      obtain rfl | rfl | rfl | rfl | rfl | rfl | rfl := hx <;> decide
    obtain ⟨front, hfront⟩ := hends scheme hmem
    have hmap : ((d ++ [slash]).take scheme.length).map lower = (ascii scheme).map lower :=
      of_decide_eq_true hmatch
    have hsplit : front ++ [47, 47] = (front ++ [47]) ++ [47] := by simp
    rw [take_of_length_le (by simp; omega), hfront, hsplit, map_append] at hmap
    have hd := (append_inj' hmap rfl).1
    obtain ⟨front', b, rfl⟩ := (eq_nil_or_concat' d).resolve_left (by rintro rfl; simp at hd)
    rw [map_append] at hd
    have hb := (append_inj' hd rfl).2
    simp only [map_cons, map_nil, List.cons.injEq, and_true] at hb
    exact hlast (by simp [(lower_eq_iff b).2.2.mp hb, slash])

theorem locationOption_local (halias : pathIsS3Alias m = false)
    (hremote : pathIsRemote (iceActualLocation m) = false) :
    IsLocal (locationOption m) ∧ locationOption m ≠ [] ∧
      ∀ cwd, location slash period cwd (locationOption m) =
        location slash period cwd (iceActualLocation m) := by
  have hcut : cutLast (cutLast m) = iceActualLocation m := by
    rw [cutLast_eq, cutLast_eq, iceActualLocation, s3Alias, if_neg (by simp [halias])]
  have hscheme := noScheme_iceDirname halias hremote
  have hne : iceActualLocation m ≠ [] := (iceDirname_cases _).1
  rw [locationOption, hcut]
  split
  · exact ⟨hscheme.isLocal, hne, fun cwd => rfl⟩
  · next hlast =>
    refine ⟨(hscheme.concat hlast).isLocal, by simp, fun cwd => ?_⟩
    rw [location_append hne, splitOn_nil]
    simp [follow]

/-- The check's location of a table in object storage. -/
theorem locationOption_object {k : CString} (hremote : pathIsRemote (iceActualLocation m) = true)
    (hs3 : IsS3Url (iceActualLocation m) k) :
    ∃ k', normPath (locationOption m) = ascii "s3://" ++ k' ∧
      (ascii "s3://" ++ k').getLast? = some slash ∧
      k' <+: k ++ [slash] := by
  -- a head that stands for the scheme, with the key behind it
  have hopath : ∀ q : CString, q.getLast? = some slash →
    (∀ x, normPath (q ++ x) = ascii "s3://" ++ x) →
      cutLast (cutLast m) = q ++ k → ∃ k', normPath (locationOption m) = ascii "s3://" ++ k' ∧
        (ascii "s3://" ++ k').getLast? = some slash ∧ k' <+: k ++ [slash] := by
    intro q hq hnorm hcut
    rw [locationOption, hcut]
    split
    · next hlast =>
      refine ⟨k, hnorm k, ?_, prefix_append _ _⟩
      cases k with
      | nil => rfl
      | cons b k =>
        rw [getLast?_append_of_ne_nil _ (cons_ne_nil _ _)] at hlast ⊢
        exact hlast
    · refine ⟨k ++ [slash], by rw [append_assoc, hnorm], ?_, prefix_refl _⟩
      rw [← append_assoc, getLast?_concat]
  by_cases halias : pathIsS3Alias m = true
  · obtain ⟨k2, hloc, hcut⟩ := iceActualLocation_alias halias hremote
    have hk : k2 = k := by
      rw [← hs3.drop, hloc]
      rfl
    have htake : (m.take 6).length = 6 := by
      rw [pathIsS3Alias, Bool.or_eq_true] at halias
      obtain h | h := halias
      · exact length_of_caseEq "s3a://" h
      · exact length_of_caseEq "s3n://" h
    have hlast : (m.take 6).getLast? = some slash := by
      obtain ⟨front, b, hsplit⟩ := (eq_nil_or_concat' (m.take 6)).resolve_left fun hnil => by
        simp [hnil] at htake
      rw [pathIsS3Alias, hsplit, Bool.or_eq_true] at halias
      have hb : lower b = 47 := by
        obtain h | h := halias
        · have hmap : (front ++ [b]).map lower = [115, 51, 97, 58, 47] ++ [47] :=
            of_decide_eq_true h
          rw [map_append] at hmap
          simpa using (append_inj' hmap rfl).2
        · have hmap : (front ++ [b]).map lower = [115, 51, 110, 58, 47] ++ [47] :=
            of_decide_eq_true h
          rw [map_append] at hmap
          simpa using (append_inj' hmap rfl).2
      rw [hsplit, getLast?_concat, (lower_eq_iff b).2.2.mp hb]
      rfl
    refine hopath (m.take 6) hlast (fun x => normPath_of_s3Alias ?_) (hk ▸ hcut)
    have halias' : pathIsS3Alias (m.take 6 ++ x) = true := by
      rwa [pathIsS3Alias, take_append_of_le_length htake.ge, take_take]
    rw [s3Alias, if_pos halias', drop_append_of_le_length htake.ge, drop_take]
    exact isS3Url_s3 x
  · have hcut : cutLast (cutLast m) = iceActualLocation m := by
      rw [cutLast_eq, cutLast_eq, iceActualLocation, s3Alias, if_neg halias]
    obtain ⟨c, hc, heq⟩ := hs3
    rw [heq] at hcut
    have hlast : [c, 51, 58, 47, 47].getLast? = some slash := rfl
    exact hopath [c, 51, 58, 47, 47] hlast (fun x => IsS3Url.norm ⟨c, hc, rfl⟩) hcut

/-! ### A table that reads the target -/

/-- The matcher passes no path that a pattern expands to. -/
def MatcherCovers (e : Session) (localGlob : LocalGlob) : Prop :=
  ∀ (s : Storage) (pattern path r : CString) (found : List CString) (f : FileRef), s.cwd = e.cwd →
    pathIsRemote (s3Alias pattern) = false → hasGlobMeta pattern = true →
    localGlob s (localGlobFold pattern) = .ok (.paths found) → r ∈ found → fileOf s r = some f →
    fileOf s (s3Alias path) = some f → pathGlobMatches e pattern path ≠ .ok false

/-- A table reads a file through one of its options. -/
def ReadsBy (e : Session) (localGlob : LocalGlob) (s : Storage) (handler : Handler) (opt : CString)
    (f : FileRef) :
    Prop :=
  match handler with
  | .parquet => (ascii "path=").isPrefixOf opt = true ∧ ∃ files r,
      pqResolvePaths e.fnmatch localGlob s (opt.drop 5) = .ok files ∧ r ∈ files ∧
        fileOf s r = some f
  | .iceberg => (ascii "metadata_path=").isPrefixOf opt = true ∧
      UnderLocation s (iceActualLocation (opt.drop 14)) f
  | .other => False

/-- What the check can compare of an option: a pattern that is read as a directory is `Foldable`,
and no scheme is left of a path whose separators run together. -/
def Comparable (e : Session) (s : Storage) (handler : Handler) (opt : CString) : Prop :=
  match handler with
  | .parquet => pathIsRemote (s3Alias (opt.drop 5)) = false → stat s (opt.drop 5) = some .dir →
      Foldable e (opt.drop 5) ∧ opt.drop 5 ≠ ascii "S3:/"
  | .iceberg => pathIsRemote (iceActualLocation (opt.drop 14)) = false →
      pathIsS3Alias (opt.drop 14) = false ∧ Foldable e (locationOption (opt.drop 14))
  | .other => True

/-- The target is the path or lies below it, as both are written or as both are resolved: what the
check compares without folding anything. -/
def SpelledAt (e : Session) (target opath : CString) : Prop :=
  sameOrBelow (normPath target) (normPath opath) = true ∨
    sameOrBelow? (resolved e.dd (normPath target)) (resolved e.dd (normPath opath)) = true

section Refused

variable {e : Session} {localGlob : LocalGlob} {s : Storage} {target p k r : CString} {f : FileRef}
  {loc : Location}

theorem fileOf_eq (h : fileOf s p = some f) : (∃ o, f = .object o ∧ IsS3Url p o) ∨
      ∃ loc, f = .inTree loc ∧ pathIsRemote p = false ∧ resolve s p = some loc ∧
        s.tree.kind loc = some .file := by
  unfold fileOf at h
  split at h
  · split_ifs at h with hs3
    cases h
    exact .inl ⟨_, rfl, isS3Url_iff.mp hs3⟩
  · next hremote =>
    split_ifs at h with hfile
    obtain ⟨loc, hloc, rfl⟩ := Option.map_eq_some_iff.mp h
    rw [stat, hloc] at hfile
    exact .inr ⟨loc, rfl, by simpa using hremote, hloc, hfile⟩

/-- The target as a local file. -/
structure LocalTarget (s : Storage) (target : CString) (loc : Location) : Prop where
  isLocal : IsLocal target
  ne : target ≠ []
  length : target.length < pathMax
  last : target.getLast? ≠ some slash
  loc : location slash period s.cwd target = loc

theorem localTarget (h : fileOf s (s3Alias target) = some (.inTree loc)) :
    LocalTarget s target loc := by
  obtain ⟨o, hf, -⟩ | ⟨loc', hf, hremote, hresolve, hkind⟩ := fileOf_eq h
  · cases hf
  · cases hf
    have hlocal := isLocal_of_alias hremote
    rw [hlocal.unaliased] at hresolve
    obtain ⟨hne, hlen⟩ := FileTree.resolve_bounds hresolve
    exact ⟨hlocal, hne, hlen, FileTree.getLast?_of_resolve hresolve (by simp [hkind]),
      (FileTree.resolve_eq hresolve).symm⟩

theorem objectTarget {o : CString} (h : fileOf s (s3Alias target) = some (.object o)) :
    normPath target = ascii "s3://" ++ o := by
  obtain ⟨o', hf, hs3⟩ | ⟨loc, hf, -⟩ := fileOf_eq h
  · cases hf
    exact normPath_of_s3Alias hs3
  · cases hf

/-- The normal form names the same file. -/
theorem fileOf_normPath (h : fileOf s (s3Alias target) = some f) :
    fileOf s (s3Alias (normPath target)) = some f := by
  cases f with
  | inTree loc =>
    have hlocal := (localTarget h).isLocal
    rwa [hlocal.norm]
  | object o =>
    have hs3 := isS3Url_s3 o
    rw [objectTarget h, s3Alias, if_neg (by simp [hs3.not_alias]), fileOf,
      if_pos (pathIsRemote_s3 o),
      if_pos hs3.caseEq, hs3.drop]

/-- A walk whose path ends in a scheme's separator lists names that look like URLs. -/
theorem eq_scheme_of_below (hp : pathIsRemote p = false) (hne : p ≠ []) (hbelow : Below p r)
    (hr : IsS3Url r k) :
    p = ascii "s3:/" ∨ p = ascii "S3:/" := by
  obtain ⟨rest, hrest, hnames, rfl⟩ := hbelow
  obtain ⟨n, ns, rfl⟩ := exists_cons_of_ne_nil hrest
  have hn := hnames n mem_cons_self
  obtain ⟨b, n', rfl⟩ := exists_cons_of_ne_nil hn.ne_nil
  have hb : b ≠ slash := fun heq => hn.notMem (heq ▸ mem_cons_self)
  obtain ⟨c, hc, heq⟩ := hr
  have hcase : ∀ x : Byte, lower x = 115 → x = 115 ∨ x = 83 := by decide
  rw [trail_cons] at heq
  match p, hne with
  | [c1], _ =>
    simp only [cons_append, nil_append, List.cons.injEq] at heq
    exact absurd heq.2.1 (by decide)
  | [c1, c2], _ =>
    simp only [cons_append, nil_append, List.cons.injEq] at heq
    exact absurd heq.2.2.1 (by decide)
  | [c1, c2, c3], _ =>
    simp only [cons_append, nil_append, List.cons.injEq] at heq
    exact absurd heq.2.2.2.2.1 hb
  | [c1, c2, c3, c4], _ =>
    simp only [cons_append, nil_append, List.cons.injEq] at heq
    obtain ⟨rfl, rfl, rfl, rfl, -⟩ := heq
    exact (hcase c1 hc).imp (fun h => by rw [h]; rfl) (fun h => by rw [h]; rfl)
  | c1 :: c2 :: c3 :: c4 :: c5 :: p', _ =>
    simp only [cons_append, List.cons.injEq] at heq
    obtain ⟨rfl, rfl, rfl, rfl, rfl, -⟩ := heq
    have hs3 : IsS3Url (c1 :: 51 :: 58 :: 47 :: 47 :: p') p' := ⟨c1, hc, rfl⟩
    have hscheme : pathIsRemote (c1 :: 51 :: 58 :: 47 :: 47 :: p') = true := by
      rw [pathIsRemote, any_cons, Bool.or_eq_true]
      exact .inl hs3.caseEq
    rw [hscheme] at hp
    cases hp

/-- **A Parquet table that reads the target is refused.** -/
theorem refuses_of_parquet {path : CString} {files : List CString} {relid : ℕ} {ice : Bool}
    (hcovers : MatcherCovers e localGlob) (hcwd : s.cwd = e.cwd)
    (htarget : fileOf s (s3Alias target) = some f)
    (hfiles : pqResolvePaths e.fnmatch localGlob s path = .ok files) (hr : r ∈ files)
    (hf : fileOf s r = some f)
    (hcond : pathIsRemote (s3Alias path) = false → stat s path = some .dir → Foldable e path ∧
      path ≠ ascii "S3:/") :
    Refuses e (mkRow e target relid ice path) := by
  have hlocalOf : pathIsRemote (s3Alias path) = false → IsLocal path := isLocal_of_alias
  -- by how the path gets `r` among its files
  cases mem_pqResolvePaths e.fnmatch localGlob hfiles hr with
  | plain hremote hdir hmeta =>
    have hpath := hlocalOf hremote
    obtain ⟨o, rfl, hs3⟩ | ⟨loc, rfl, -, hresolve, hkind⟩ := fileOf_eq hf
    · -- a URL is not a local path
      have hscheme : pathIsRemote r = true := by
        rw [pathIsRemote, any_cons, Bool.or_eq_true]
        exact .inl hs3.caseEq
      rw [hpath.remote] at hscheme
      cases hscheme
    · have ht := localTarget htarget
      obtain ⟨hne, -⟩ := FileTree.resolve_bounds hresolve
      rw [hpath.unaliased] at hmeta
      refine refuses_of_location [] ht.isLocal.norm hpath.norm (by simp [mkRow, ht.isLocal.norm])
        (by simp [mkRow, hpath.norm]) ht.isLocal hpath ht.ne hne ht.length ht.last ?_ ?_ ?_
      · have hno : ¬ hasGlobMeta r = true := by simp [hmeta]
        exact ⟨fun hglob => absurd hglob hno, fun _ hglob => absurd hglob hno⟩
      · rw [← hcwd, ht.loc, append_nil]
        exact FileTree.resolve_eq hresolve
      · exact fun _ => ⟨FileTree.getLast?_of_resolve hresolve (by simp [hkind]), hmeta⟩
  | walked hremote hdir hbelow =>
    have hpath := hlocalOf hremote
    rw [hpath.unaliased] at hdir hbelow
    obtain ⟨hfold, hscheme⟩ := hcond hremote hdir
    have hne : path ≠ [] := by
      intro hnil
      rw [hnil] at hdir
      cases hdir
    obtain ⟨o, rfl, hs3⟩ | ⟨loc, rfl, -, hresolve, -⟩ := fileOf_eq hf
    · have hpath' := (eq_scheme_of_below hpath.remote hne hbelow hs3).resolve_right hscheme
      left
      rw [rowHit, if_pos]
      · exact fun heq => by cases heq
      · have hbelow' : below (normPath target) (normPath path) = true := by
          rw [objectTarget htarget, hpath.norm, hpath']
          rfl
        simp only [hitForms, mkRow, hbelow']
        simp
    · have ht := localTarget htarget
      obtain ⟨rest, hrest, hnames, rfl⟩ := hbelow
      refine refuses_of_location rest ht.isLocal.norm hpath.norm (by simp [mkRow, ht.isLocal.norm])
        (by simp [mkRow, hpath.norm]) ht.isLocal hpath ht.ne hne ht.length ht.last hfold ?_ fun hnil
          => absurd hnil hrest
      rw [← hcwd, ht.loc, FileTree.resolve_eq hresolve, location_append_trail _ hne hnames]
  | globbed hremote hmeta hglob hmem =>
    have hpath := hlocalOf hremote
    rw [hpath.unaliased] at hmeta hglob
    -- a pattern is left to the matcher
    right
    change hasGlobMeta (normPath path) = true ∧
      pathGlobMatches e (normPath path) (normPath target) ≠ .ok false
    rw [hpath.norm]
    exact ⟨hmeta, hcovers s path (normPath target) r _ f hcwd hremote hmeta hglob hmem hf
      (fileOf_normPath htarget)⟩
  | exact hremote =>
    obtain ⟨o, rfl, hs3⟩ | ⟨loc, -, hlocal, -⟩ := fileOf_eq hf
    · exact refuses_of_object (objectTarget htarget) (normPath_of_s3Alias hs3) hs3 (.inl rfl)
    · rw [hremote] at hlocal
      cases hlocal
  | listed hremote hdir hs3 rest =>
    have hurl := isS3Url_iff.mp hs3
    obtain ⟨o, rfl, hs3'⟩ | ⟨loc, -, hlocal, -⟩ := fileOf_eq hf
    · have ho : o = (s3Alias path).drop 5 ++ rest := by
        rw [← hs3'.drop]
        rfl
      refine refuses_of_object (objectTarget htarget) (normPath_of_s3Alias hurl) hurl
        (.inr (.inl ⟨?_, ?_⟩))
      · obtain ⟨c, -, heq⟩ := hurl
        rw [heq] at hdir
        have hsplit : c :: 51 :: 58 :: 47 :: 47 :: (s3Alias path).drop 5 =
            [c, 51, 58, 47] ++ slash :: (s3Alias path).drop 5 := rfl
        rw [hsplit, getLast?_append_of_ne_nil _ (cons_ne_nil _ _)] at hdir
        have hsplit' : ascii "s3://" ++ (s3Alias path).drop 5 = ascii "s3:/" ++ slash ::
          (s3Alias path).drop 5 := rfl
        rw [hsplit', getLast?_append_of_ne_nil _ (cons_ne_nil _ _)]
        exact hdir
      · rw [ho]
        exact prefix_append _ _
    · rw [pathIsRemote_s3] at hlocal
      cases hlocal
  | matched hremote hstart hbound key hmatch =>
    have hurl : IsS3Url (s3Alias path) ((s3Alias path).drop 5) := by
      rw [← isS3Url_iff]
      by_contra hs3
      exact hstart (by rw [remoteGlobStart, if_neg hs3])
    obtain ⟨o, rfl, hs3'⟩ | ⟨loc, -, hlocal, -⟩ := fileOf_eq hf
    · have ho : o = key := by
        rw [← hs3'.drop]
        rfl
      subst ho
      exact refuses_of_object (objectTarget htarget) (normPath_of_s3Alias hurl) hurl
        (hmatch.imp_right fun h => .inr ⟨hstart, hbound, h⟩)
    · rw [pathIsRemote_s3] at hlocal
      cases hlocal

/-- **An Iceberg table with the target under its location is refused.** -/
theorem refuses_of_iceberg {m : CString} {relid : ℕ} {ice : Bool} (hcwd : s.cwd = e.cwd)
    (htarget : fileOf s (s3Alias target) = some f)
    (hunder : UnderLocation s (iceActualLocation m) f)
    (hcond : pathIsRemote (iceActualLocation m) = false →
      pathIsS3Alias m = false ∧ Foldable e (locationOption m)) :
    Refuses e (mkRow e target relid ice (locationOption m)) := by
  unfold UnderLocation at hunder
  split at hunder
  · next hremote =>
    obtain ⟨o, rfl, hs3, hpre⟩ := hunder
    obtain ⟨k', hnorm, hlast, hk'⟩ := locationOption_object hremote (isS3Url_iff.mp hs3)
    exact refuses_of_object (objectTarget htarget) hnorm (isS3Url_s3 k')
      (.inr (.inl ⟨hlast, hk'.trans hpre⟩))
  · next hremote =>
    obtain ⟨halias, hfold⟩ := hcond (by simpa using hremote)
    obtain ⟨hpath, hne, hloc⟩ := locationOption_local halias (by simpa using hremote)
    obtain ⟨loc, rest, hresolve, hrest, rfl⟩ := hunder
    have ht := localTarget htarget
    refine refuses_of_location rest ht.isLocal.norm hpath.norm (by simp [mkRow, ht.isLocal.norm])
      (by simp [mkRow, hpath.norm]) ht.isLocal hpath ht.ne hne ht.length ht.last hfold ?_ fun hnil
        => absurd hnil hrest
    rw [← hcwd, ht.loc, hloc, ← FileTree.resolve_eq hresolve]

/-- However its path folds, a table with the target below it as they are spelled is refused. -/
theorem refuses_of_spelledAt {opath : CString} {relid : ℕ} {ice : Bool}
    (h : SpelledAt e target opath) :
    Refuses e (mkRow e target relid ice opath) := by
  have hhit : hitForms (mkRow e target relid ice opath) = true := by
    obtain hwritten | hresolved := h
    · obtain heq | hbelow := Bool.or_eq_true_iff.mp hwritten
      · simp [hitForms, mkRow, heq]
      · simp [hitForms, mkRow, hbelow]
    · simp [hitForms, mkRow, hresolved]
  left
  rw [rowHit, if_pos hhit]
  exact fun heq => by cases heq

end Refused

def sampleDir : Location := [ascii "w", ascii "[x]", ascii "\\.", ascii "d"]

def sampleFile : Location := sampleDir ++ [ascii "a.parquet"]

theorem sampleFile_names : ∀ n ∈ sampleFile, IsName slash period n := by decide

/-- One file, with the working directory above it. -/
def sampleStorage : Storage where
  tree := FileTree.single sampleFile (by decide) sampleFile_names
  cwd := [ascii "w"]
  objects := []
  objstore := false

/-- A superuser; no pattern matches. -/
def sampleSession : Session where
  fnmatch := fun _ _ => false
  localGlobWalk := fun _ _ => .ok false
  dataDir := ascii "/w"
  cwd := [ascii "w"]
  cwd_names := by decide
  readsSettings := true

def sampleGlob : LocalGlob := fun _ _ => .ok .noMatch

theorem sample_covers : MatcherCovers sampleSession sampleGlob := by
  intro s pattern path r found f _ _ _ hglob
  cases hglob

/-- The target, with a separator twice. -/
def sampleTarget : CString := ascii "/w//[x]/\\./d/a.parquet"

/-- A directory whose walk finds the one file. -/
theorem sample_reads (path r : CString) (hlocal : pathIsRemote (s3Alias path) = false)
    (hdir : stat sampleStorage path = some .dir)
    (hwalk : pqWalkDir sampleStorage (maxWalkDepth + 1) path ([], 0) = .ok ([r], 0))
    (hr : fileOf sampleStorage r = some (.inTree sampleFile)) :
    ReadsBy sampleSession sampleGlob sampleStorage .parquet (ascii "path=" ++ path)
      (.inTree sampleFile) := by
  refine ⟨rfl, [r], r, ?_, mem_singleton_self r, hr⟩
  change pqResolvePaths _ _ _ path = _
  rw [pqResolvePaths, if_neg (by simp [hlocal]), s3Alias_of_local hlocal]
  rw [if_pos hdir, hwalk]
  simp

def samplePath : CString := ascii "/w/[x]/\\./d"

def sampleTable : ForeignTable := ⟨16384, .parquet, [ascii "path=" ++ samplePath]⟩

/-- Nothing is refused: the form as written has another separator, and the folded form is no
prefix. -/
theorem sample_passes : pathCheck sampleSession sampleTarget [sampleTable] = .ok () := by
  have hcand : candidates sampleSession sampleTarget [sampleTable] =
      .ok [(mkRow sampleSession sampleTarget 16384 false samplePath, false)] := by
    have hrows : ([sampleTable].flatMap (rowsOf sampleSession sampleTarget)).mapM
        (fun r => do return (r, ← rowHit sampleSession r)) =
          .ok [(mkRow sampleSession sampleTarget 16384 false samplePath, false)] := by
      rfl
    rw [candidates, hrows]
    change Except.ok
      (List.mergeSort [(mkRow sampleSession sampleTarget 16384 false samplePath, false)] rowLe) = _
    rw [mergeSort_singleton]
  rw [pathCheck, hcand]
  rfl

end PgColumnar.Tier
