import PgColumnar.Keys.Preimage
import PgColumnar.Lib.Like

/-!
# An anchored pattern as a range of the column

The bytes of a `LIKE` pattern before its first wildcard are what a matching value starts with, so
the clause gets a lower bound, and an upper one where the last of these bytes can be incremented
(`pgcolumnar_like_prefix_scankey`).  Both hold in byte order only.

Which collations are byte order is a parameter, and so is what a wildcard takes for a character.

## Main definitions

* `likePrefixScankey` — the literals in front of the pattern, and their successor.

## Main results

* `between_iff_isPrefix` — the texts between the two.
* `like_keys` — the keys pass every match.
-/

namespace PgColumnar.Keys

open Bytes Iceberg Zone List

/-- `OID_TEXT_LIKE_OP` -/
def textLikeOp : Oid := 1209

/-- A backslash, a percent sign and an underscore. -/
def likeSyntax : Like.Syntax Byte := ⟨0x5C, 0x25, 0x5F⟩

/-- The scan of the pattern, with what it has found so far. -/
def prefixLoop : CString → CString → CString
  | [], buf => buf
  | c :: rest, buf =>
    if c = 0x5C then
      match rest with
      | [] => buf
      | b :: rest => prefixLoop rest (buf ++ [b])
    else if c = 0x25 ∨ c = 0x5F then buf
    else prefixLoop rest (buf ++ [c])

variable (sc : Scan)

/-- `pgcolumnar_like_prefix_scankey` -/
def likePrefixScankey (op : OpExpr) (var : Var) (att : Attribute) (con : Value) :
    List (ScanKey CString) :=
  match con with
  | .text pat =>
    if !sc.collationIsC att.attcollation || !sc.collationIsC op.inputcollid then
      []
    else
      match (prefixLoop pat []).getLast? with
      | none => []
      | some last =>
        if last.toNat < 0x7F then
          [⟨var.varattno, .greaterEqual, TEXTOID, att.attcollation, prefixLoop pat []⟩,
            ⟨var.varattno, .less, TEXTOID, att.attcollation,
              (prefixLoop pat []).dropLast ++ [last + 1]⟩]
        else
          [⟨var.varattno, .greaterEqual, TEXTOID, att.attcollation, prefixLoop pat []⟩]
  | _ => []

/-- `pgcolumnar_clause_to_scankey`, as far as a `LIKE` gets. -/
def likeScankey (op : OpExpr) : List (ScanKey CString) :=
  match op.args with
  | [leftop, rightop] =>
    match leftop.stripRelabel, rightop.stripRelabel with
    | .var var, .const (some con) =>
      match sc.attOf var with
      | some att =>
        if op.inputcollid ≠ att.attcollation then []
        else if op.opno = textLikeOp then likePrefixScankey sc op var att con
        else []
      | none => []
    | _, _ => []
  | _ => []

/-- Byte order: the bytes in front are compared, and of two texts of which one starts with the other
the shorter one is less. -/
def textCmp : CString → CString → ℤ
  | [], [] => 0
  | [], _ :: _ => -1
  | _ :: _, [] => 1
  | a :: as, b :: bs =>
    if a.toNat < b.toNat then -1 else if b.toNat < a.toNat then 1 else textCmp as bs

/-! ### The clause itself -/

/-- The text of a column or a constant, in a row with this text in the column. -/
def Node.text (v : CString) : Node → Option CString
  | .var _ => some v
  | .const (some (.text s)) => some s
  | .relabel arg => arg.text v
  | _ => none

/-- The pattern of a `LIKE` clause. -/
def OpExpr.pattern (op : OpExpr) : Option CString :=
  match op.args with
  | [_, rightop] => rightop.text []
  | _ => none

/-- The clause is a `LIKE` that holds on a row. -/
def OpExpr.Likes (next : CString → CString) (op : OpExpr) (v : CString) : Prop :=
  op.opno = textLikeOp ∧ ∃ leftop rightop value pattern, op.args = [leftop, rightop] ∧
    leftop.text v = some value ∧ rightop.text v = some pattern ∧
    Like.Matches next (Like.tokens likeSyntax pattern) value

/-! ### The scan of the pattern -/

/-- **The scan finds the literals in front of the pattern.** -/
theorem prefixLoop_eq (pat buf : CString) :
    prefixLoop pat buf = buf ++ Like.literals (Like.tokens likeSyntax pat) := by
  fun_induction prefixLoop pat buf with
  | case1 buf => simp [Like.tokens, Like.literals]
  | case2 buf =>
    have hdangling : Like.literals (Like.tokens likeSyntax [0x5C]) = [] :=
      Like.literals_tokens_dangling
    rw [hdangling, append_nil]
  | case3 buf b rest ih =>
    have hescape : Like.tokens likeSyntax (0x5C :: b :: rest) =
        .lit b :: Like.tokens likeSyntax rest := Like.tokens_escape b rest
    rw [ih, hescape, Like.literals, append_assoc]
    rfl
  | case4 c rest buf hesc hwild =>
    rw [Like.literals_tokens_wildcard hesc hwild, append_nil]
  | case5 c rest buf hesc hwild ih =>
    rw [not_or] at hwild
    rw [ih, Like.literals_tokens_literal hesc hwild.1 hwild.2, append_assoc]
    rfl

/-! ### Byte order -/

theorem textCmp_append (p x y : CString) : textCmp (p ++ x) (p ++ y) = textCmp x y := by
  induction p with
  | nil => rfl
  | cons b p ih =>
    rw [cons_append, cons_append, textCmp, if_neg (lt_irrefl _), if_neg (lt_irrefl _), ih]

theorem textCmp_nil_right (x : CString) : 0 ≤ textCmp x [] := by
  cases x <;> simp [textCmp]

/-- A text that starts with another one is not less. -/
theorem textCmp_of_isPrefix {p v : CString} (h : p <+: v) : 0 ≤ textCmp v p := by
  obtain ⟨x, rfl⟩ := h
  have := textCmp_append p x []
  rw [append_nil] at this
  rw [this]
  exact textCmp_nil_right x

/-- A byte that can be incremented. -/
theorem toNat_succ {b : Byte} (h : b.toNat < 0x7F) : (b + 1).toNat = b.toNat + 1 := by
  rw [BitVec.toNat_add]
  exact Nat.mod_eq_of_lt (by simp; omega)

/-- **The texts between a text and its successor are those that start with it.** -/
theorem between_iff_isPrefix {b : Byte} (hb : b.toNat < 0x7F) (q : CString) :
    ∀ v, (0 ≤ textCmp v (q ++ [b]) ∧ textCmp v (q ++ [b + 1]) < 0) ↔ q ++ [b] <+: v := by
  have hsucc := toNat_succ hb
  induction q with
  | nil =>
    intro v
    cases v with
    | nil => simp [textCmp]
    | cons a x =>
      rw [nil_append, nil_append, cons_prefix_cons, textCmp, textCmp]
      have hx := textCmp_nil_right x
      have heq : b = a ↔ b.toNat = a.toNat := ⟨congrArg _, BitVec.eq_of_toNat_eq⟩
      rw [heq, and_iff_left nil_prefix]
      constructor
      · intro h
        obtain ⟨hge, hlt⟩ := h
        split_ifs at hge hlt <;> omega
      · intro h
        rw [if_neg (by omega), if_neg (by omega), if_pos (by omega)]
        exact ⟨hx, by decide⟩
  | cons c q ih =>
    intro v
    cases v with
    | nil => simp [textCmp]
    | cons a x =>
      rw [cons_append, cons_append, cons_prefix_cons, textCmp, textCmp, ← ih x]
      have heq : c = a ↔ c.toNat = a.toNat := ⟨congrArg _, BitVec.eq_of_toNat_eq⟩
      rw [heq]
      split_ifs <;> simp <;> omega

/-! ### The keys -/

variable {sc : Scan}

/-- The keys by the literals in front of the pattern. -/
theorem likePrefixScankey_eq {op : OpExpr} {var : Var} {att : Attribute} {pat : CString} :
    likePrefixScankey sc op var att (.text pat) = [] ∨
    (sc.collationIsC att.attcollation = true ∧
      ∃ q b, Like.literals (Like.tokens likeSyntax pat) = q ++ [b] ∧
        likePrefixScankey sc op var att (.text pat) =
          ⟨var.varattno, .greaterEqual, TEXTOID, att.attcollation, q ++ [b]⟩ ::
            if b.toNat < 0x7F then
              [⟨var.varattno, .less, TEXTOID, att.attcollation, q ++ [b + 1]⟩]
            else []) := by
  rw [likePrefixScankey, prefixLoop_eq, nil_append]
  by_cases hC : (!sc.collationIsC att.attcollation || !sc.collationIsC op.inputcollid) = true
  · exact .inl (if_pos hC)
  rw [if_neg hC]
  have hatt : sc.collationIsC att.attcollation = true := by
    simp only [Bool.or_eq_true, Bool.not_eq_true', not_or, Bool.not_eq_false] at hC
    exact hC.1
  obtain hnil | ⟨q, b, hq⟩ := eq_nil_or_concat (Like.literals (Like.tokens likeSyntax pat))
  · rw [hnil]
    exact .inl rfl
  · rw [concat_eq_append] at hq
    refine .inr ⟨hatt, q, b, hq, ?_⟩
    rw [hq, getLast?_append, dropLast_concat]
    dsimp only [getLast?_singleton, Option.some_or]
    by_cases hb : b.toNat < 0x7F
    · rw [if_pos hb, if_pos hb]
    · rw [if_neg hb, if_neg hb]

theorem text_stripRelabel (n : Node) (v : CString) : n.text v = n.stripRelabel.text v := by
  cases n <;> rfl

/-- A clause with keys compares the column with a pattern. -/
theorem likeScankey_eq (op : OpExpr) : likeScankey sc op = [] ∨
    ∃ leftop rightop var att pat, op.args = [leftop, rightop] ∧ leftop.stripRelabel = .var var ∧
      rightop.stripRelabel = .const (some (.text pat)) ∧
      likeScankey sc op = likePrefixScankey sc op var att (.text pat) := by
  unfold likeScankey
  split
  · next leftop rightop hargs =>
    split
    · next var con hl hr =>
      split
      · next att hatt =>
        by_cases hcoll : op.inputcollid ≠ att.attcollation
        · exact .inl (if_pos hcoll)
        rw [if_neg hcoll]
        by_cases hop : op.opno = textLikeOp
        · rw [if_pos hop]
          cases con with
          | text pat => exact .inr ⟨leftop, rightop, var, att, pat, hargs, hl, hr, rfl⟩
          | _ => exact .inl rfl
        · exact .inl (if_neg hop)
      · exact .inl rfl
    · exact .inl rfl
  · exact .inl rfl

/-- **The keys of an anchored pattern.**  They pass every match, and where there are two of them
they pass exactly the texts that start with the literals in front of the pattern. -/
theorem like_keys (sc : Scan) (order : Oid → CString → CString → ℤ)
    (hC : ∀ coll, sc.collationIsC coll = true → order coll = textCmp)
    (next : CString → CString) (op : OpExpr) :
    (∀ v, op.Likes next v → ∀ key ∈ likeScankey sc op, key.Satisfied (order key.collation) v) ∧
      ∀ lower upper, likeScankey sc op = [lower, upper] → ∀ v,
        (lower.Satisfied (order lower.collation) v ∧ upper.Satisfied (order upper.collation) v ↔
          ∃ pattern, op.pattern = some pattern ∧
            Like.literals (Like.tokens likeSyntax pattern) <+: v) := by
  obtain hnil | ⟨leftop, rightop, var, att, pat, hargs, hl, hr, hkeys⟩ :=
    @likeScankey_eq sc op
  · rw [hnil]
    exact ⟨fun v _ key hkey => absurd hkey not_mem_nil, fun lower upper h => by cases h⟩
  have htext : ∀ v, rightop.text v = some pat := by
    intro v
    rw [text_stripRelabel, hr]
    rfl
  have hpattern : op.pattern = some pat := by
    rw [OpExpr.pattern, hargs]
    exact htext []
  have hmatch : ∀ v, op.Likes next v → Like.literals (Like.tokens likeSyntax pat) <+: v := by
    intro v h
    obtain ⟨-, l, r, value, pattern, hargs', hvalue, hpat, hm⟩ := h
    rw [hargs] at hargs'
    cases hargs'
    rw [htext] at hpat
    rw [text_stripRelabel, hl] at hvalue
    cases hpat
    cases hvalue
    exact hm.literals_isPrefix
  obtain hnil | ⟨hcoll, q, b, hlit, heq⟩ :=
    @likePrefixScankey_eq sc op var att pat
  · rw [hkeys, hnil]
    exact ⟨fun v _ key hkey => absurd hkey not_mem_nil, fun lower upper h => by cases h⟩
  rw [hkeys, heq]
  have horder := hC _ hcoll
  -- only below `0x7F` the last byte has a successor to bound the texts with
  by_cases hb : b.toNat < 0x7F
  · rw [if_pos hb]
    constructor
    · intro v hv key hkey
      have hbetween := (between_iff_isPrefix hb q v).mpr (hlit ▸ hmatch v hv)
      obtain rfl | hkey := mem_cons.mp hkey
      · rw [ScanKey.Satisfied, horder]
        exact hbetween.1
      · obtain rfl := mem_singleton.mp hkey
        rw [ScanKey.Satisfied, horder]
        exact hbetween.2
    · intro lower upper h v
      cases h
      rw [ScanKey.Satisfied, ScanKey.Satisfied, horder]
      refine (between_iff_isPrefix hb q v).trans ?_
      rw [hpattern, ← hlit]
      simp
  · rw [if_neg hb]
    constructor
    · intro v hv key hkey
      obtain rfl := mem_singleton.mp hkey
      rw [ScanKey.Satisfied, horder]
      exact textCmp_of_isPrefix (hlit ▸ hmatch v hv)
    · intro lower upper h
      cases h

/-- A relation with one text column in byte order. -/
def textScan : Scan where
  scanrelid := 1
  tupdesc := [⟨TEXTOID, 950⟩]
  timestampStrategy _ := none
  collationIsC coll := coll == 950

/-- `column LIKE 'a\%b%'` leaves the texts that start with `a%b`. -/
theorem like_keys_escape : ∃ lower upper, likeScankey textScan ⟨textLikeOp, 950,
        [.var ⟨1, 1, 0⟩, .const (some (.text (ascii "a\\%b%")))]⟩ = [lower, upper] ∧
      ∀ v, lower.Satisfied textCmp v ∧ upper.Satisfied textCmp v ↔ ascii "a%b" <+: v := by
  have hkeys := like_keys textScan (fun _ => textCmp) (fun _ _ => rfl) (List.drop 1)
    ⟨textLikeOp, 950, [.var ⟨1, 1, 0⟩, .const (some (.text (ascii "a\\%b%")))]⟩
  refine ⟨_, _, rfl, fun v => (hkeys.2 _ _ rfl v).trans ?_⟩
  constructor
  · intro h
    obtain ⟨pattern, hpat, h⟩ := h
    cases hpat
    exact h
  · intro h
    exact ⟨_, rfl, h⟩

end PgColumnar.Keys
