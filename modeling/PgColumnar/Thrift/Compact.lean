import PgColumnar.Lib.Steps
import PgColumnar.Lib.Varint
import PgColumnar.Lib.Parser

/-!
# The Thrift compact protocol

The reader and the writer of `columnar_thrift.c`.  The reader is a cursor with a sticky error flag,
which its callers test after the fact; the stack check raises instead.

The cursor of the model also keeps a record of the list elements that were walked, for the
statements only.

## Main definitions

* `TCReader`, `thriftSkip` — the reader with its latched error, and the skip.
* `Calls` — what every call of the reader keeps.

## Main results

* `takes_thriftSkip` — a skip stays inside the buffer.
-/

namespace PgColumnar.Thrift

open Bytes Cursor Steps
open Varint (zigzag unzigzag unzigzag_zigzag)

/-! ### The cursor -/

/-- What is raised, and a loop that does not end. -/
inductive Raise
  | stackDepth
  | allocSize
  | unfinished

/-- An element of a list: its type, whether it was skipped as a field would be, and where it
stood. -/
structure Walked where
  etype : ℕ
  asField : Bool
  before : ℕ
  after : ℕ

/-- `TCReader`; the buffer is a parameter of what reads it. -/
structure TCReader where
  pos : ℕ
  error : Bool
  walked : List Walked

abbrev Reader (α : Type) := StateT TCReader (Except Raise) α

def TCReader.failed (r : TCReader) : TCReader := { r with error := true }

def TCReader.moved (r : TCReader) (n : ℕ) : TCReader := { r with pos := r.pos + n }

def setError : Reader Unit := fun r => .ok ((), r.failed)

/-- The cast to `int`. -/
def castInt (z : ℤ) : ℤ := Int.bmod z 4294967296

section Reader

variable (buf : List Byte)

/-- `PgColumnarThriftVarint` -/
def thriftVarint : Reader ℕ := fun r =>
  match Varint.scan 64 63 (buf.drop r.pos) 0 0 with
  | (.done, v, k) => .ok (v, r.moved k)
  | (_, v, k) => .ok (v, (r.moved k).failed)

/-- `PgColumnarThriftZigzag` -/
def thriftZigzag : Reader ℤ := do
  let u ← thriftVarint buf
  return unzigzag u

/-- `PgColumnarThriftBytes`; the length is cut to 32 bits. -/
def thriftBytes : Reader (Option (List Byte)) := do
  let n ← thriftVarint buf
  fun r =>
    if r.error ∨ buf.length - r.pos < n then .ok (none, r.failed)
    else .ok (some ((buf.drop r.pos).take (n % 4294967296)), r.moved n)

/-- The next byte, or the error. -/
def thriftByte : Reader (Option ℕ) := fun r =>
  match buf[r.pos]? with
  | none => .ok (none, r.failed)
  | some b => .ok (some b.toNat, r.moved 1)

/-- `PgColumnarThriftField`: the type, the id and the last id; the type 0 is `TC_STOP`. -/
def thriftField (lastId : ℤ) : Reader (ℕ × ℤ) := do
  let b ← thriftByte buf
  match b with
  | none => pure (0, lastId)
  | some b =>
    if b = 0 then pure (0, lastId)
    else if 13 < b % 16 ∨ b % 16 = 0 then do
      setError
      pure (0, lastId)
    else if b / 16 ≠ 0 then pure (b % 16, castInt (lastId + (b / 16 : ℕ)))
    else do
      let z ← thriftZigzag buf
      pure (b % 16, castInt z)

/-- Some bytes that are not looked at. -/
def thriftAdvance (n : ℕ) : Reader Unit := fun r =>
  if buf.length - r.pos < n then .ok ((), r.failed) else .ok ((), r.moved n)

/-- `PgColumnarThriftListHeader` -/
def thriftListHeader : Reader (ℕ × ℕ) := do
  let b ← thriftByte buf
  match b with
  | none => pure (0, 0)
  | some b =>
    if b / 16 = 15 then do
      let v ← thriftVarint buf
      pure (v % 4294967296, b % 16)
    else pure (b / 16, b % 16)

/-- The loop over the fields of a struct, up to its stop or an error. -/
def structLoopAux {σ : Type} (body : σ → ℕ → ℤ → Reader σ) : ℕ → ℤ → σ → Reader σ
  | 0, _, _ => throw .unfinished
  | fuel + 1, lastId, s => do
    let (ftype, fid) ← thriftField buf lastId
    let r ← get
    if ftype = 0 ∨ r.error then pure s
    else do
      let s ← body s ftype fid
      structLoopAux body fuel fid s

/-- Every field takes at least the byte of its header. -/
def structLoop {σ : Type} (body : σ → ℕ → ℤ → Reader σ) (s : σ) : Reader σ := fun r =>
  structLoopAux buf body (buf.length - r.pos + 1) 0 s r

end Reader

/-- One element of a list. -/
def element {σ : Type} (etype : ℕ) (asField : Bool) (step : σ → Reader σ) (s : σ) : Reader σ := do
  let before ← get
  let s ← step s
  let after ← get
  set { after with walked := after.walked ++ [Walked.mk etype asField before.pos after.pos] }
  return s

theorem element_run {σ : Type} (etype : ℕ) (asField : Bool) (step : σ → Reader σ) (s : σ)
    (r : TCReader) :
    element etype asField step s r = match step s r with
      | .error e => .error e
      | .ok (s, t) => .ok
        (s, { t with walked := t.walked ++ [⟨etype, asField, r.pos, t.pos⟩] }) := by
  show (step s >>= fun s => do
    let after ← get
    set { after with walked := after.walked ++ [Walked.mk etype asField r.pos after.pos] }
    return s) r = _
  rw [bind_run]
  cases step s r <;> rfl

/-- The loop over the elements of a list, which an error ends. -/
def elements {σ : Type} (etype : ℕ) (asField : Bool) (step : σ → Reader σ) : ℕ → σ → Reader σ
  | 0, s => pure s
  | n + 1, s => do
    let r ← get
    if r.error then pure s
    else do
      let s ← element etype asField step s
      elements etype asField step n s

/-- `TC_BOOL_TRUE` or `TC_BOOL_FALSE` -/
def IsBool (etype : ℕ) : Prop := etype = 1 ∨ etype = 2

instance (etype : ℕ) : Decidable (IsBool etype) := inferInstanceAs (Decidable (_ ∨ _))

section Skip

variable (buf : List Byte)

/-- `pq_thrift_skip_element`, over the skip of other types -/
def skipElement (skip : ℕ → Reader Unit) (etype : ℕ) : Reader Unit :=
  if IsBool etype then thriftAdvance buf 1 else skip etype

/-- The entries of a map, behind the byte of their two types. -/
def skipEntries (skip : ℕ → Reader Unit) (size : ℕ) : Reader Unit := do
  let b ← thriftByte buf
  match b with
  | none => pure ()
  | some b =>
    elements (b / 16) false (fun _ => do
      skipElement buf skip (b / 16)
      skipElement buf skip (b % 16)) size ()

/-- A map: a size, and no types when there is no entry. -/
def skipMap (skip : ℕ → Reader Unit) : Reader Unit := do
  let v ← thriftVarint buf
  let r ← get
  if r.error ∨ v % 4294967296 = 0 then pure () else skipEntries buf skip (v % 4294967296)

/-- A list or a set; a header that is not there ends it before its elements. -/
def skipList (skip : ℕ → Reader Unit) : Reader Unit := do
  let (size, etype) ← thriftListHeader buf
  elements etype false (fun _ => skipElement buf skip etype) size ()

/-- `PgColumnarThriftSkip`, with the number of levels that the stack has room for. -/
def thriftSkip : ℕ → ℕ → Reader Unit
  | 0, _ => throw .stackDepth
  | depth + 1, ftype =>
    match ftype with
    | 1 | 2 => pure ()
    | 3 => thriftAdvance buf 1
    | 4 | 5 | 6 => do
      let _ ← thriftZigzag buf
    | 7 => thriftAdvance buf 8
    | 8 => do
      let _ ← thriftBytes buf
    | 9 | 10 => skipList buf (thriftSkip depth)
    | 11 => skipMap buf (thriftSkip depth)
    | 12 => structLoop buf (fun _ ftype _ => thriftSkip depth ftype) ()
    | 13 => thriftAdvance buf 16
    | _ => setError

end Skip

/-! ### What a call does -/

def Inside (buf : List Byte) (r : TCReader) : Prop := r.pos ≤ buf.length

/-- The element took a byte, unless it is a boolean that was skipped as a field. -/
def Walked.Exact (w : Walked) : Prop := w.before < w.after ↔ ¬ (w.asField = true ∧ IsBool w.etype)

/-- Any call: the cursor never moves back, an error stays, and the elements walked without one are
exact. -/
structure Step (r t : TCReader) : Prop where
  le : r.pos ≤ t.pos
  error : r.error = true → t.error = true
  walked : ∃ ws, t.walked = r.walked ++ ws ∧ (t.error = false → ∀ w ∈ ws, w.Exact)

/-- A call that takes a byte under a condition, and else none. -/
structure Took (c : Prop) (r t : TCReader) : Prop extends Step r t where
  took : t.error = false → (r.pos < t.pos ↔ c)

theorem Step.refl (r : TCReader) : Step r r := ⟨le_rfl, id, [], by simp, by simp⟩

variable {r t : TCReader}

theorem Step.trans {u : TCReader} (h : Step r t) (h' : Step t u) : Step r u := by
  obtain ⟨ws, hws, hexact⟩ := h.walked
  obtain ⟨vs, hvs, hexact'⟩ := h'.walked
  refine ⟨h.le.trans h'.le, fun he => h'.error (h.error he), ws ++ vs, ?_, fun he w hw => ?_⟩
  · rw [hvs, hws, List.append_assoc]
  · have het : t.error = false := by
      by_contra hne
      rw [Bool.not_eq_false] at hne
      rw [h'.error hne] at he
      cases he
    obtain hw | hw := List.mem_append.mp hw
    · exact hexact het w hw
    · exact hexact' he w hw

theorem Took.step {u : TCReader} (h : Took True r t) (h' : Step t u) : Took True r u := by
  refine ⟨h.toStep.trans h', fun he => ?_⟩
  have het : t.error = false := by
    by_contra hne
    rw [Bool.not_eq_false] at hne
    rw [h'.error hne] at he
    cases he
  have hlt := (h.took het).mpr trivial
  have hle := h'.le
  simp only [iff_true]
  omega

theorem Took.of_true {c : Prop} (hc : c) (h : Took True r t) : Took c r t :=
  ⟨h.toStep, fun he => by simpa [hc] using h.took he⟩

theorem step_failed : Step r r.failed :=
    ⟨le_rfl, fun _ => rfl, [], by simp [TCReader.failed], by simp⟩

theorem took_failed {c : Prop} (h : Step r t) : Took c r t.failed :=
  ⟨h.trans step_failed, fun he => by cases he⟩

theorem step_moved (n : ℕ) : Step r (r.moved n) :=
  ⟨Nat.le_add_right _ _, id, [], by simp [TCReader.moved], by simp⟩

theorem took_moved {n : ℕ} (hn : 0 < n) : Took True r (r.moved n) :=
  ⟨step_moved n, fun _ => by simpa [TCReader.moved] using hn⟩

section Calls

variable {buf : List Byte} {α σ : Type}

/-- Never a loop without an end. -/
def Endless (e : Raise) : Prop := e = .unfinished

abbrev Calls (buf : List Byte) (x : Reader α) : Prop := Keeps (Inside buf) Endless Step x

abbrev Takes (buf : List Byte) (c : Prop) (x : Reader α) : Prop :=
    Keeps (Inside buf) Endless (Took c) x

theorem calls_pure (a : α) : Calls buf (pure a : Reader α) := keeps_pure Step.refl a

theorem Takes.calls {x : Reader α} {c : Prop} (h : Takes buf c x) :
    Calls buf x := h.imp fun _ _ => Took.toStep

theorem Takes.then {x : Reader α} {β : Type} {f : α → Reader β} (hx : Takes buf True x)
    (hf : ∀ a, Calls buf (f a)) : Takes buf True (x >>= f) :=
  hx.seq hf fun _ _ _ => Took.step

theorem Calls.then {x : Reader α} {β : Type} {f : α → Reader β} (hx : Calls buf x)
    (hf : ∀ a, Calls buf (f a)) : Calls buf (x >>= f) :=
  hx.bind (fun _ _ _ => Step.trans) hf

theorem Calls.get {f : TCReader → Reader α} (h : ∀ r, Calls buf (f r)) : Calls buf (get >>= f) :=
  fun r hr => KeepsAt.get (h r r hr)

theorem takes_setError {c : Prop} : Takes buf c setError :=
  fun r hr => keepsAt_ok rfl hr (took_failed (Step.refl r))

theorem takes_thriftVarint : Takes buf True (thriftVarint buf) := by
  intro r hr
  have hle : (Varint.scan 64 63 (buf.drop r.pos) 0 0).2.2 ≤ (buf.drop r.pos).length :=
    Varint.scan_le_length
  rw [List.length_drop] at hle
  have hin : r.pos ≤ buf.length := hr
  have hrun : thriftVarint buf r = match Varint.scan 64 63 (buf.drop r.pos) 0 0 with
    | (.done, v, k) => .ok (v, r.moved k)
    | (_, v, k) => .ok (v, (r.moved k).failed) := rfl
  cases hscan : Varint.scan 64 63 (buf.drop r.pos) 0 0 with
  | mk status rest =>
    obtain ⟨v, k⟩ := rest
    rw [hscan] at hrun hle
    have hmoved : Inside buf (r.moved k) := by
      simp only [Inside, TCReader.moved]
      dsimp only at hle
      omega
    cases status with
    | done =>
      have hne : buf.drop r.pos ≠ [] := by
        intro hnil
        simp [hnil, Varint.scan] at hscan
      have hk : 0 < (Varint.scan 64 63 (buf.drop r.pos) 0 0).2.2 := Varint.scan_pos hne
      rw [hscan] at hk
      exact keepsAt_ok hrun hmoved (took_moved hk)
    | ended | overlong => exact keepsAt_ok hrun hmoved (took_failed (step_moved k))

theorem takes_thriftZigzag : Takes buf True (thriftZigzag buf) :=
  takes_thriftVarint.then fun _ => calls_pure _

theorem takes_thriftBytes : Takes buf True (thriftBytes buf) := by
  refine takes_thriftVarint.then fun n r hr => ?_
  have hin : r.pos ≤ buf.length := hr
  by_cases hbad : r.error = true ∨ buf.length - r.pos < n
  · exact keepsAt_ok (if_pos hbad) hr step_failed
  · refine keepsAt_ok (if_neg hbad) ?_ (step_moved n)
    simp only [Inside, TCReader.moved]
    omega

theorem takes_thriftByte : Takes buf True (thriftByte buf) := by
  intro r hr
  have hrun : thriftByte buf r = match buf[r.pos]? with
    | none => .ok (none, r.failed)
    | some b => .ok (some b.toNat, r.moved 1) := rfl
  cases hget : buf[r.pos]? with
  | none =>
    rw [hget] at hrun
    exact keepsAt_ok hrun hr (took_failed (Step.refl r))
  | some b =>
    rw [hget] at hrun
    obtain ⟨hlt, -⟩ := List.getElem?_eq_some_iff.mp hget
    exact keepsAt_ok hrun hlt (took_moved Nat.one_pos)

theorem takes_thriftAdvance {n : ℕ} (hn : 0 < n) : Takes buf True (thriftAdvance buf n) := by
  intro r hr
  have hin : r.pos ≤ buf.length := hr
  by_cases hbad : buf.length - r.pos < n
  · exact keepsAt_ok (if_pos hbad) hr (took_failed (Step.refl r))
  · refine keepsAt_ok (if_neg hbad) ?_ (took_moved hn)
    simp only [Inside, TCReader.moved]
    omega

theorem takes_thriftField (lastId : ℤ) : Takes buf True (thriftField buf lastId) := by
  refine takes_thriftByte.then fun b => ?_
  cases b with
  | none => exact calls_pure _
  | some b =>
    refine Keeps.ite (calls_pure _) (Keeps.ite ?_ (Keeps.ite (calls_pure _) ?_))
    · exact (takes_setError (c := True)).calls.then fun _ => calls_pure _
    · exact takes_thriftZigzag.calls.then fun _ => calls_pure _

theorem takes_thriftListHeader : Takes buf True (thriftListHeader buf) := by
  refine takes_thriftByte.then fun b => ?_
  cases b with
  | none => exact calls_pure _
  | some b => exact Keeps.ite (takes_thriftVarint.calls.then fun _ => calls_pure _) (calls_pure _)

/-- The loop ends: every field takes a byte or is an error. -/
theorem takes_structLoop {body : σ → ℕ → ℤ → Reader σ}
    (hbody : ∀ s ftype fid, Calls buf (body s ftype fid))
    (s : σ) : Takes buf True (structLoop buf body s) := by
  have haux : ∀ fuel lastId s r, Inside buf r → buf.length - r.pos < fuel →
      KeepsAt (Inside buf) Endless (Took True) (structLoopAux buf body fuel lastId s) r := by
    intro fuel
    induction fuel with
    | zero =>
      intro lastId s r hr hfuel
      omega
    | succ fuel ih =>
      intro lastId s r hr hfuel
      rw [structLoopAux]
      refine (takes_thriftField lastId r hr).seq (S := Step) (fun field t _ ht htook => ?_)
        fun t u htook hstep => htook.step hstep
      refine KeepsAt.get ?_
      split
      · exact keepsAt_pure ht (Step.refl t) s
      · next hgo =>
        rw [not_or, Bool.not_eq_true] at hgo
        have hlt := (htook.took hgo.2).mpr trivial
        refine (hbody s field.1 field.2 t ht).seq (fun s' u _ hu hstep => ?_) fun u v => Step.trans
        have hle := hstep.le
        have hin : u.pos ≤ buf.length := hu
        obtain ⟨herr, hok⟩ := ih field.2 s' u hu (by omega)
        exact ⟨herr, fun a v hrun => ⟨(hok a v hrun).1, (hok a v hrun).2.toStep⟩⟩
  exact fun r hr => haux _ 0 s r hr (Nat.lt_succ_self _)

/-- An element that takes a byte, unless it is a boolean skipped as a field. -/
theorem calls_element {asField : Bool} {etype : ℕ} {step : σ → Reader σ}
    (hstep : ∀ s, Takes buf (¬ (asField = true ∧ IsBool etype)) (step s)) (s : σ) :
    Calls buf (element etype asField step s) := by
  intro r hr
  refine KeepsAt.get ?_
  refine (hstep s r hr).seq (S := fun t u =>
    u = { t with walked := t.walked ++ [⟨etype, asField, r.pos, t.pos⟩] })
    (fun s' t _ ht _ => ?_) fun t u htook hu => ?_
  · exact keepsAt_ok rfl ht rfl
  · subst hu
    obtain ⟨ws, hws, hexact⟩ := htook.walked
    refine ⟨htook.le, htook.error, ws ++ [⟨etype, asField, r.pos, t.pos⟩], ?_, fun he w hw => ?_⟩
    · rw [hws, List.append_assoc]
    · obtain hw | hw := List.mem_append.mp hw
      · exact hexact he w hw
      · rw [List.mem_singleton.mp hw]
        exact htook.took he

theorem calls_elements {asField : Bool} {etype : ℕ} {step : σ → Reader σ}
    (hstep : ∀ s, Takes buf (¬ (asField = true ∧ IsBool etype)) (step s)) (n : ℕ) (s : σ) :
    Calls buf (elements etype asField step n s) := by
  induction n generalizing s with
  | zero => exact calls_pure s
  | succ n ih => exact Calls.get fun r => Keeps.ite (calls_pure s) ((calls_element hstep s).then ih)

theorem takes_skipElement {skip : ℕ → Reader Unit}
    (hskip : ∀ ftype, Takes buf (¬ IsBool ftype) (skip ftype))
    (etype : ℕ) : Takes buf True (skipElement buf skip etype) := by
  unfold skipElement
  split
  · exact takes_thriftAdvance Nat.one_pos
  · next hbool =>
      exact (hskip etype).imp fun _ _ h => ⟨h.toStep, fun he => by simpa [hbool] using h.took he⟩

/-- **A skip keeps the cursor inside the buffer**, and takes a byte of everything but a boolean
field. -/
theorem takes_thriftSkip (depth ftype : ℕ) :
    Takes buf (¬ IsBool ftype) (thriftSkip buf depth ftype) := by
  induction depth generalizing ftype with
  | zero => exact keeps_throw (by simp [Endless])
  | succ depth ih =>
    have hskipElement := takes_skipElement ih
    have hfalse : ∀ {etype : ℕ} {x : Reader Unit}, Takes buf True x →
        Takes buf (¬ (false = true ∧ IsBool etype)) x :=
      fun h => h.imp fun _ _ => Took.of_true (by simp)
    have hlist : Takes buf True (skipList buf (thriftSkip buf depth)) :=
      takes_thriftListHeader.then fun header =>
        calls_elements (fun _ => hfalse (hskipElement header.2)) header.1 ()
    have hmap : Takes buf True (skipMap buf (thriftSkip buf depth)) := by
      refine takes_thriftVarint.then fun v => Calls.get fun r => Keeps.ite (calls_pure ()) ?_
      refine takes_thriftByte.calls.then fun b => ?_
      cases b with
      | none => exact calls_pure ()
      | some b =>
        exact calls_elements
          (fun _ => hfalse ((hskipElement (b / 16)).then fun _ => (hskipElement (b % 16)).calls)) _
            ()
    have htrue : ∀ {x : Reader Unit}, ¬ IsBool ftype → Takes buf True x →
      Takes buf (¬ IsBool ftype) x :=
      fun hne h => h.imp fun _ _ => Took.of_true hne
    unfold thriftSkip
    split
    · exact fun r hr => keepsAt_pure hr ⟨Step.refl r, fun _ => by simp [IsBool]⟩ ()
    · exact fun r hr => keepsAt_pure hr ⟨Step.refl r, fun _ => by simp [IsBool]⟩ ()
    · exact htrue (by decide) (takes_thriftAdvance (by decide))
    · exact htrue (by decide) (takes_thriftZigzag.then fun _ => calls_pure _)
    · exact htrue (by decide) (takes_thriftZigzag.then fun _ => calls_pure _)
    · exact htrue (by decide) (takes_thriftZigzag.then fun _ => calls_pure _)
    · exact htrue (by decide) (takes_thriftAdvance (by decide))
    · exact htrue (by decide) (takes_thriftBytes.then fun _ => calls_pure _)
    · exact htrue (by decide) hlist
    · exact htrue (by decide) hlist
    · exact htrue (by decide) hmap
    · exact htrue (by decide) (takes_structLoop (fun _ ftype _ => (ih ftype).calls) ())
    · exact htrue (by decide) (takes_thriftAdvance (by decide))
    · exact takes_setError

end Calls

end PgColumnar.Thrift
