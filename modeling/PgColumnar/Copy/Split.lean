import PgColumnar.Copy.Text
import PgColumnar.Lib.Round

/-!
# Cutting a file for parallel workers

`columnar_parallel_copy.c` gives every worker a byte range of the file.  For a single table
the ranges are even, up to the next newline (`pcopy_line_offsets`).  For a range-partitioned
target the file has to be sorted by the key, and a range ends where the next row belongs to a
later partition (`pcopy_partition_aligned_offsets`).  Both look for newline bytes only.

## Main definitions

* `lineOffsets` — the ranges for a single table, cut at newlines.
* `partitionAlignedOffsets` — the ranges for a partitioned one, cut where the partition changes.
* `loadRanges` — the records that the workers load.
-/

namespace PgColumnar.Copy

open Bytes

def tab : Byte := 9

/-- A regular file, with what `read` returns of it: it may return less than it was asked
for, but nothing only at the end of the file. -/
structure File where
  bytes : List Byte
  got : ℕ → ℕ → ℕ
  got_le : ∀ off want, got off want ≤ want ∧ got off want ≤ bytes.length - off
  got_pos : ∀ off want, 0 < want → off < bytes.length → 0 < got off want

namespace File

/-- A file of which `read` returns as much as it can. -/
def regular (bytes : List Byte) : File where
  bytes := bytes
  got off want := min want (bytes.length - off)
  got_le off want := ⟨Nat.min_le_left _ _, Nat.min_le_right _ _⟩
  got_pos off want hwant hoff := by omega

def size (f : File) : ℕ := f.bytes.length

def read (f : File) (off want : ℕ) : List Byte := (f.bytes.drop off).take (f.got off want)

end File

/-! ## Even ranges -/

/-- `COLUMNAR_SPLIT_SCAN_CHUNK` -/
def splitScanChunk : ℕ := 65536

/-- `(int64) ((double) size * next / nranges)`. -/
def splitPoint (size next nranges : ℕ) : ℕ :=
  Round.quotTrunc 53 (Round.roundBits 53 (Round.roundBits 53 size 1 * next) 1) nranges

/-- The newline at `pos` is given to all the split points it reaches. -/
def fillBoundary (size nranges pos : ℕ) (offs : List ℕ) : List ℕ :=
  offs ++ ((List.range' offs.length (nranges - offs.length)).takeWhile fun next =>
    splitPoint size next nranges ≤ pos).map fun _ => pos + 1

/-- One buffer that begins at `pos`; `offs` is filled up to `next`. -/
def scanBuffer (size nranges : ℕ) : ℕ → List Byte → List ℕ → List ℕ
  | _, [], offs => offs
  | pos, c :: buf, offs =>
    scanBuffer size nranges (pos + 1) buf
      (if c = lf then fillBoundary size nranges pos offs else offs)

def scanFile (f : File) (nranges : ℕ) : ℕ → ℕ → List ℕ → List ℕ
  | 0, _, offs => offs
  | fuel + 1, bufbase, offs =>
    if offs.length < nranges ∧ bufbase < f.size then
      let buf := f.read bufbase splitScanChunk
      if buf.length = 0 then offs
      else scanFile f nranges fuel (bufbase + buf.length)
        (scanBuffer f.size nranges bufbase buf offs)
    else offs

/-- `pcopy_line_offsets` -/
def lineOffsets (f : File) (nranges : ℕ) : List ℕ :=
  let offs := scanFile f nranges (f.size + 1) 0 [0]
  offs ++ List.replicate (nranges - offs.length) f.size ++ [f.size]

/-! ## Ranges of whole partitions -/

inductive PartitionStrategy where
  | list
  | range
  | hash
  deriving DecidableEq

/-- A bound of a range partition. -/
inductive Bound (κ : Type) where
  | minvalue
  | maxvalue
  | datum (k : κ)

structure Attribute where
  isDropped : Bool
  generated : Bool

/-- What `pcopy_partition_aligned_offsets` reads of the target: its partition key, the
bounds, and the input and compare functions of the key's type. -/
structure Target (κ : Type) where
  strategy : PartitionStrategy
  partnatts : ℕ
  /-- 0 for an expression. -/
  partattr : ℕ
  bounds : Option (List (Bound κ))
  defaultIndex : Option ℕ
  atts : List Attribute
  category : Char
  input : List Byte → Option κ
  cmp : κ → κ → ℤ

inductive PcopyError where
  | notRange
  | notSingleColumn
  | noPartitions
  | defaultPartition
  | keyCategory
  | tooFewColumns (line : ℕ)
  | invalidKey
  | notSorted (line : ℕ)
  deriving DecidableEq

variable {κ : Type}

namespace Target

def boundCmp (t : Target κ) (k : κ) : Bound κ → ℤ
  | .minvalue => 1
  | .maxvalue => -1
  | .datum d => t.cmp k d

/-- The loop of `pcopy_partition_bucket`. -/
def bucketLoop (t : Target κ) (bounds : List (Bound κ)) (k : κ) : ℕ → ℕ → ℕ → ℕ
  | 0, lo, _ => lo
  | fuel + 1, lo, hi =>
    if lo < hi then
      let mid := (lo + hi) / 2
      match bounds[mid]? with
      | none => lo
      | some b => if 0 ≤ t.boundCmp k b then bucketLoop t bounds k fuel (mid + 1) hi
        else bucketLoop t bounds k fuel lo mid
    else lo

/-- `pcopy_partition_bucket` -/
def partitionBucket (t : Target κ) (bounds : List (Bound κ)) (k : κ) : ℕ :=
  t.bucketLoop bounds k (bounds.length + 1) 0 bounds.length

/-- The index of the key among the fields of a row. -/
def keyfield (t : Target κ) : ℕ :=
  ((t.atts.take (t.partattr - 1)).filter fun a => !a.isDropped && !a.generated).length

end Target

/-- `strchr`, up to the byte that ends a C string. -/
def strchr (c : Byte) : List Byte → Option (List Byte)
  | [] => none
  | d :: l => if d = c then some (d :: l) else if d = 0 then none else strchr c l

/-- The row from its field `f` on. -/
def skipFields : ℕ → List Byte → Option (List Byte)
  | 0, p => some p
  | f + 1, p => (strchr tab p).bind fun q => skipFields f q.tail

/-- The bytes before a tab, a line end or the end of the string. -/
def fieldBytes (p : List Byte) : List Byte :=
  p.takeWhile fun c => c ≠ tab && c ≠ cr && c ≠ lf && c ≠ 0

/-- The partition a line belongs to. -/
def Target.lineBucket (t : Target κ) (bounds : List (Bound κ)) (lineStart : ℕ)
    (line : List Byte) : Except PcopyError ℕ :=
  match skipFields t.keyfield line with
  | none => .error (.tooFewColumns lineStart)
  | some p =>
    match t.input (fieldBytes p) with
    | none => .error .invalidKey
    | some k => .ok (t.partitionBucket bounds k)

/-- `getline`: a line with its newline, and what follows. -/
def getline (l : List Byte) : List Byte × List Byte :=
  match l.dropWhile (· ≠ lf) with
  | [] => (l, [])
  | c :: rest => (l.takeWhile (· ≠ lf) ++ [c], rest)

/-- The scan of the file: `segStart` is filled up to `cur`. -/
structure Scan where
  off : ℕ
  prevBucket : ℕ
  segStart : List ℕ

def scanRows (t : Target κ) (bounds : List (Bound κ)) :
    ℕ → List Byte → Scan → Except PcopyError Scan
  | 0, _, s => .ok s
  | fuel + 1, l, s =>
    if l = [] then .ok s
    else
      match t.lineBucket bounds s.off (getline l).1 with
      | .error e => .error e
      | .ok bucket =>
        if bucket < s.prevBucket then .error (.notSorted s.off)
        else
          scanRows t bounds fuel (getline l).2
            { off := s.off + (getline l).1.length
              prevBucket := bucket
              segStart := s.segStart ++ List.replicate (bucket + 1 - s.segStart.length) s.off }

/-- The array `seg_start`: where the rows of each partition begin, and the end of the file. -/
def segments (t : Target κ) (f : File) : Except PcopyError (List ℕ) :=
  if t.strategy ≠ .range then .error .notRange
  else if t.partnatts ≠ 1 ∨ t.partattr = 0 then .error .notSingleColumn
  else
    match t.bounds with
    | none => .error .noPartitions
    | some bounds =>
      if bounds.length = 0 then .error .noPartitions
      else if t.defaultIndex.isSome then .error .defaultPartition
      else if t.category ≠ 'N' ∧ t.category ≠ 'D' then .error .keyCategory
      else
        (scanRows t bounds (f.size + 1) f.bytes ⟨0, 0, [0]⟩).map fun s =>
          s.segStart ++ List.replicate (bounds.length + 1 - s.segStart.length) f.size ++ [f.size]

/-- The loop that balances the segments by bytes. -/
def balance (target workers : ℕ) : ℕ → ℕ → List ℕ → List ℕ → List ℕ
  | _, _, [], woff => woff
  | segStart, running, segEnd :: seg, woff =>
    if woff.length < workers then
      balance target workers segEnd (running + (segEnd - segStart)) seg
        (if target * woff.length ≤ running + (segEnd - segStart) then woff ++ [segEnd] else woff)
    else woff

/-- The number of workers: one for each segment at most, and at least one. -/
def groupWorkers (workers : ℕ) (seg : List ℕ) : ℕ := max 1 (min workers (seg.length - 1))

/-- The segment ends at which a range ends. -/
def cuts (size workers : ℕ) (seg : List ℕ) : List ℕ :=
  balance (size / groupWorkers workers seg) (groupWorkers workers seg) 0 0 seg.tail [0]

/-- Contiguous segments grouped into the ranges of the workers. -/
def group (size workers : ℕ) (seg : List ℕ) : List ℕ :=
  let woff := cuts size workers seg
  woff ++ List.replicate (groupWorkers workers seg + 1 - woff.length) size

/-- `pcopy_partition_aligned_offsets` -/
def partitionAlignedOffsets (t : Target κ) (f : File) (workers : ℕ) : Except PcopyError (List ℕ) :=
  (segments t f).map (group f.size workers)

/-! ## What a worker reads -/

/-- `PcopyRangeSource`: the position of the descriptor, and the bytes that remain. -/
structure RangeSource where
  pos : ℕ
  remaining : ℕ

/-- The loop of `pcopy_range_read`, with `left` bytes of the buffer to fill. -/
def rangeReadLoop (f : File) : ℕ → ℕ → RangeSource → List Byte × RangeSource
  | 0, _, src => ([], src)
  | fuel + 1, left, src =>
    if 0 < left ∧ 0 < src.remaining then
      let buf := f.read src.pos (min left src.remaining)
      if buf.length = 0 then ([], src)
      else
        let r := rangeReadLoop f fuel (left - buf.length)
          ⟨src.pos + buf.length, src.remaining - buf.length⟩
        (buf ++ r.1, r.2)
    else ([], src)

/-- `pcopy_range_read` -/
def rangeRead (f : File) (maxread : ℕ) (src : RangeSource) : List Byte × RangeSource :=
  rangeReadLoop f maxread maxread src

/-- The size of the buffer `COPY` fills. -/
def rawBufSize : ℕ := 65536

/-- `COPY` asks until it gets nothing. -/
def drain (f : File) : ℕ → RangeSource → List Byte
  | 0, _ => []
  | fuel + 1, src =>
    let r := rangeRead f rawBufSize src
    if r.1.length = 0 then [] else r.1 ++ drain f fuel r.2

/-- The bytes a worker hands to `COPY`, of its range from `startOff` to `endOff`. -/
def rangeBytes (f : File) (startOff endOff : ℕ) : List Byte :=
  drain f (endOff - startOff + 1) ⟨startOff, endOff - startOff⟩

/-- The records that all the workers load, one range after the other. -/
def loadRanges (f : File) : List ℕ → Option (List (List Byte))
  | a :: b :: offs =>
    (copyFrom .unknown (rangeBytes f a b)).bind fun recs =>
      (loadRanges f (b :: offs)).map fun more => recs ++ more
  | _ => some []

end PgColumnar.Copy
