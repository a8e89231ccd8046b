import FelineOS.Verif.NumberText

/-!
# Which strings can be shown

Every character that is not negative comes out as itself or as an escape of a few printable
characters. A negative one becomes a number of `2 ^ 64 - 128` or more, and no power of sixteen that
an `unsigned long long` holds is above it, so that its formatting never ends.
-/

namespace FelineOS.Logger

variable {malloc : Nat → Bool}

/-! ## Appending text -/

/-- A text has been appended, and the vector is no larger than an object can be. -/
structure Appended (v w : KVector UInt8) (text : List UInt8) : Prop where
  /-- The text is behind what was there. -/
  items : w.items = v.items ++ text
  /-- The places are those of an object. -/
  bounded : w.capacity ≤ ptrdiffMax

/-- An allocation up to a size is refused. -/
def Refused (malloc : Nat → Bool) (limit : Nat) : Prop := ∃ bytes ≤ limit, malloc bytes = false

/-- A smaller allocation is refused as well when one up to a smaller size is. -/
theorem Refused.mono {one other : Nat} (refused : Refused malloc one) (less : one ≤ other) :
    Refused malloc other := by
  obtain ⟨bytes, small, missing⟩ := refused
  exact ⟨bytes, Nat.le_trans small less, missing⟩

/-- Room is made inside an object, unless it is refused. -/
theorem reserve_object (bounded : Bounded malloc) {v : KVector UInt8}
    (small : v.capacity ≤ ptrdiffMax) (num : Nat) :
    (v.reserve malloc 1 num = .error .abort ∧ malloc num = false) ∨
      ∃ w, v.reserve malloc 1 num = .ok w ∧ w.1.capacity ≤ ptrdiffMax := by
  unfold KVector.reserve
  by_cases enough : num ≤ v.capacity
  · rw [dif_pos enough]
    exact .inr ⟨_, rfl, small⟩
  · rw [dif_neg enough]
    cases given : malloc num with
    | false =>
      have refused : allocate malloc 1 num = .error .abort := by
        unfold allocate
        split
        · rfl
        · rw [Nat.mul_one, given]
          rfl
      rw [refused]
      exact .inl ⟨rfl, rfl⟩
    | true =>
      have object := bounded num given
      have word : ¬uintptrMax / 1 < num := by
        rw [Nat.div_one]
        unfold uintptrMax
        unfold ptrdiffMax at object
        omega
      have granted : allocate malloc 1 num = .ok () := by
        unfold allocate
        rw [if_neg word, Nat.mul_one, given]
        rfl
      rw [granted]
      exact .inr ⟨_, rfl, object⟩

/-- Another text comes behind the others, unless memory is refused. -/
theorem append_text (bounded : Bounded malloc) {v : KVector UInt8}
    (small : v.capacity ≤ ptrdiffMax) (other : List UInt8) :
    (v.append malloc 1 other = .error .abort ∧ Refused malloc (v.items.length + other.length)) ∨
      ∃ w, v.append malloc 1 other = .ok w ∧ Appended v w other := by
  unfold KVector.append
  rcases reserve_object bounded small (v.items.length + other.length) with
    ⟨refused, missing⟩ | ⟨⟨w, kept, room⟩, made, object⟩
  · rw [refused]
    exact .inl ⟨rfl, _, Nat.le_refl _, missing⟩
  · rw [made]
    exact .inr ⟨_, rfl, congrArg (· ++ other) kept, object⟩

/-- So does a single character. -/
theorem append_char (bounded : Bounded malloc) {v : KVector UInt8}
    (small : v.capacity ≤ ptrdiffMax) (c : UInt8) :
    (v.appendCopies malloc 1 c 1 = .error .abort ∧ Refused malloc (v.items.length + 1)) ∨
      ∃ w, v.appendCopies malloc 1 c 1 = .ok w ∧ Appended v w [c] := by
  have sized : v.items.length + 1 < wordLimit := by
    have fits := v.fits
    unfold wordLimit
    unfold ptrdiffMax at small
    omega
  unfold KVector.appendCopies
  rcases reserve_object bounded small (wrap (v.items.length + 1)) with
    ⟨refused, missing⟩ | ⟨⟨w, kept, room⟩, made, object⟩
  · rw [wrap_of_lt sized] at missing
    rw [refused]
    exact .inl ⟨rfl, _, Nat.le_refl _, missing⟩
  · have enough : (w.items ++ List.replicate 1 c).length ≤ w.capacity := by
      rw [List.length_append, List.length_replicate, kept, ← wrap_of_lt sized]
      exact room
    rw [made, ok_bind]
    dsimp only
    rw [dif_pos enough]
    exact .inr ⟨_, rfl, congrArg (· ++ [c]) kept, object⟩

/-! ## Characters -/

/-- A byte has two hexadecimal digits at most. -/
theorem digits_byte {n : Nat} (byte : n < 256) : (Nat.digits 16 n).length ≤ 2 :=
  (Nat.digits_length_le_iff (by decide) n).mpr byte

/-- The number of a byte is formatted, unless memory is refused. -/
theorem xtostr_byte (malloc : Nat → Bool) {n : Nat} (byte : n < 256) :
    (xtostr malloc 64 n false 1 = .error .abort ∧ Refused malloc (max (Nat.digits 16 n).length 1)) ∨
      xtostr malloc 64 n false 1 =
        .ok ((formatted 16 1 n).map fun c => if 0x39 < c then c + 39 else c) := by
  have short := digits_byte byte
  have fits : 16 ^ max (Nat.digits 16 n).length 1 < 2 ^ 64 :=
    calc
      16 ^ max (Nat.digits 16 n).length 1 ≤ 16 ^ 2 := Nat.pow_le_pow_right (by decide) (by omega)
      _ < 2 ^ 64 := by decide
  unfold xtostr
  rcases ntostr_of_fits (by decide) fits malloc (by omega) (by decide) (by decide) with
    ⟨refused, missing⟩ | ⟨str, formats, items⟩
  · rw [refused]
    exact .inl ⟨rfl, missing⟩
  · rw [formats, ok_bind, items]
    exact .inr rfl

/-- A character that has no escape of its own. -/
def Unnamed (c : UInt8) : Prop :=
  isprint c = false ∧ c ≠ 0x00 ∧ c ≠ 0x09 ∧ c ≠ 0x0D ∧ c ≠ 0x0A ∧ c ≠ 0x1B

/-- The characters that have escapes of their own. -/
theorem named_of_hidden {c : UInt8} (hidden : ¬isprint c) (named : ¬Unnamed c) :
    c = 0x00 ∨ c = 0x09 ∨ c = 0x0D ∨ c = 0x0A ∨ c = 0x1B := by
  by_contra other
  simp only [not_or] at other
  exact named ⟨Bool.eq_false_iff.mpr hidden, other⟩

/-- Such a character is escaped by its number. -/
theorem escaped_unnamed {c : UInt8} (unnamed : Unnamed c) : escaped c =
    [0x5C, 0x78] ++ (formatted 16 1 c.toNat).map fun c => if 0x39 < c then c + 39 else c := by
  obtain ⟨hidden, nul, tab, cr, lf, esc⟩ := unnamed
  unfold escaped
  rw [if_neg (by rw [hidden]; decide)]
  split
  · exact absurd rfl nul
  · exact absurd rfl tab
  · exact absurd rfl cr
  · exact absurd rfl lf
  · exact absurd rfl esc
  · rfl

/-- What `strDebug` appends for it. -/
theorem appendSafe_unnamed {fuel : Nat} {signedChar : Bool} {v : KVector UInt8} {c : UInt8}
    (unnamed : Unnamed c) : appendSafe malloc fuel signedChar v c = (do
      let v ← v.append malloc 1 [0x5C, 0x78]
      let number ← xtostr malloc fuel (widened signedChar c) false 1
      v.append malloc 1 number) := by
  obtain ⟨hidden, nul, tab, cr, lf, esc⟩ := unnamed
  unfold appendSafe
  rw [if_neg (by rw [hidden]; decide)]
  split
  · exact absurd rfl nul
  · exact absurd rfl tab
  · exact absurd rfl cr
  · exact absurd rfl lf
  · exact absurd rfl esc
  · rfl

/-- A character that is not negative as a number. -/
def Natural (signedChar : Bool) (c : UInt8) : Prop := signedChar = false ∨ c < 0x80

/-- Such a character is its own number. -/
theorem widened_natural {signedChar : Bool} {c : UInt8} (natural : Natural signedChar c) :
    widened signedChar c = c.toNat := by
  unfold widened
  rcases natural with unsigned | small
  · rw [unsigned]
    rfl
  · have positive : ¬0x80 ≤ c := UInt8.not_le.mpr small
    rw [decide_eq_false positive, Bool.and_false]
    rfl

/-- Two appended texts are one. -/
theorem Appended.trans {u v w : KVector UInt8} {one other : List UInt8} (first : Appended u v one)
    (second : Appended v w other) : Appended u w (one ++ other) :=
  ⟨by rw [second.items, first.items, List.append_assoc], second.bounded⟩

/-- The escape of a character that is not negative comes behind the others, unless memory is
refused. -/
theorem appendSafe_text (bounded : Bounded malloc) {signedChar : Bool} {v : KVector UInt8}
    (small : v.capacity ≤ ptrdiffMax) {c : UInt8} (natural : Natural signedChar c) :
    (appendSafe malloc 64 signedChar v c = .error .abort ∧
        Refused malloc (v.items.length + (escaped c).length)) ∨
      ∃ w, appendSafe malloc 64 signedChar v c = .ok w ∧ Appended v w (escaped c) := by
  by_cases unnamed : Unnamed c
  · have long : (escaped c).length = 2 + max (Nat.digits 16 c.toNat).length 1 := by
      rw [escaped_unnamed unnamed, List.length_append, List.length_map, length_formatted]
      rfl
    rw [appendSafe_unnamed unnamed, widened_natural natural]
    rcases append_text bounded small [0x5C, 0x78] with ⟨refused, missing⟩ | ⟨middle, made, front⟩
    · rw [refused]
      refine .inl ⟨rfl, missing.mono ?_⟩
      show v.items.length + 2 ≤ _
      omega
    · rw [made, ok_bind]
      rcases xtostr_byte malloc (UInt8.toNat_lt c) with ⟨refused, missing⟩ | formats
      · rw [refused]
        exact .inl ⟨rfl, missing.mono (by omega)⟩
      · rw [formats, ok_bind]
        rcases append_text bounded front.bounded ((formatted 16 1 c.toNat).map
            fun c => if 0x39 < c then c + 39 else c) with ⟨refused, missing⟩ | ⟨after, made, back⟩
        · refine .inl ⟨refused, missing.mono ?_⟩
          rw [front.items, List.length_append, List.length_map, length_formatted, long]
          show v.items.length + 2 + _ ≤ _
          omega
        · rw [escaped_unnamed unnamed]
          exact .inr ⟨after, made, front.trans back⟩
  · by_cases print : isprint c
    · have itself : escaped c = [c] := by
        unfold escaped
        rw [if_pos print]
      have single : appendSafe malloc 64 signedChar v c = v.appendCopies malloc 1 c 1 := by
        unfold appendSafe
        rw [if_pos print]
      rw [itself, single]
      exact append_char bounded small c
    · rcases named_of_hidden print unnamed with rfl | rfl | rfl | rfl | rfl
      · exact append_text bounded small [0x5C, 0x30]
      · exact append_text bounded small [0x5C, 0x74]
      · exact append_text bounded small [0x5C, 0x72]
      · exact append_text bounded small [0x5C, 0x6E]
      · exact append_text bounded small [0x5C, 0x65]

/-- The escapes of characters that are not negative come one behind the other. -/
theorem foldSafe_text (bounded : Bounded malloc) {signedChar : Bool} {v : KVector UInt8}
    (small : v.capacity ≤ ptrdiffMax) {chars : List UInt8}
    (natural : ∀ c ∈ chars, Natural signedChar c) :
    (chars.foldlM (appendSafe malloc 64 signedChar) v = .error .abort ∧
        Refused malloc (v.items.length + (chars.flatMap escaped).length)) ∨
      ∃ w, chars.foldlM (appendSafe malloc 64 signedChar) v = .ok w ∧
        Appended v w (chars.flatMap escaped) := by
  induction chars generalizing v with
  | nil => exact .inr ⟨v, rfl, (List.append_nil _).symm, small⟩
  | cons c chars ih =>
    have first := natural c (List.mem_cons_self ..)
    have later (d : UInt8) (listed : d ∈ chars) := natural d (List.mem_cons_of_mem c listed)
    rw [List.foldlM_cons, List.flatMap_cons, List.length_append]
    rcases appendSafe_text bounded small first with ⟨refused, missing⟩ | ⟨middle, made, front⟩
    · rw [refused]
      exact .inl ⟨rfl, missing.mono (by omega)⟩
    · rw [made, ok_bind]
      rcases ih front.bounded later with ⟨refused, missing⟩ | ⟨after, done, back⟩
      · refine .inl ⟨refused, missing.mono ?_⟩
        rw [front.items, List.length_append]
        omega
      · exact .inr ⟨after, done, front.trans back⟩

/-! ## Negative characters -/

/-- No power of sixteen in an `unsigned long long` is above `2 ^ 60`. -/
theorem power_sixteen (k : Nat) : power 16 k ≤ 2 ^ 60 := by
  unfold power
  by_cases small : k < 16
  · calc
      16 ^ k % 2 ^ 64 ≤ 16 ^ k := Nat.mod_le _ _
      _ ≤ 16 ^ 15 := Nat.pow_le_pow_right (by decide) (by omega)
      _ = 2 ^ 60 := by decide
  · obtain ⟨more, rfl⟩ : ∃ more, k = 16 + more := ⟨k - 16, by omega⟩
    have whole : 16 ^ (16 + more) = 2 ^ 64 * 16 ^ more := by
      rw [Nat.pow_add]
      rfl
    rw [whole, Nat.mul_mod_right]
    exact Nat.zero_le _

/-- The formatting of a negative character never ends. -/
theorem xtostr_negative (granted : malloc 1 = true) (fuel : Nat) {c : UInt8} (negative : 0x80 ≤ c) :
    xtostr malloc fuel (widened true c) false 1 = .error .divergence := by
  have large : 2 ^ 60 < widened true c := by
    unfold widened
    rw [decide_eq_true negative]
    show 2 ^ 60 < 2 ^ 64 - 256 + c.toNat
    omega
  have positive : widened true c ≠ 0 := by omega
  obtain ⟨⟨str, kept, room⟩, made⟩ :=
    (reserve_bytes (KVector.empty : KVector UInt8) malloc (show 1 < wordLimit by decide)).resolve_left
      fun refused => by
        rw [granted] at refused
        exact Bool.noConfusion refused.2
  have endless : strLen (widened true c) 16 fuel 1 0 = .error .divergence := by
    rcases strLen_cases (widened true c) 16 fuel 1 0 with endless | ⟨counted, ends⟩
    · exact endless
    · have starts : strLen (widened true c) 16 fuel (power 16 0) (wrap 0) = .ok counted := by
        rw [power_zero]
        exact ends
      obtain ⟨k, above, -⟩ := strLen_ok (fun j before => absurd before (Nat.not_lt_zero j)) starts
      have bound := power_sixteen k
      have larger := above.above
      omega
  unfold xtostr ntostr
  rw [made, ok_bind]
  dsimp only
  rw [if_neg (by decide), if_neg positive, endless]
  rfl

/-- A negative character has no escape of its own. -/
theorem negative_unnamed {c : UInt8} (negative : 0x80 ≤ c) : Unnamed c := by
  have hidden : isprint c = false := by
    have beyond : ¬c ≤ 0x7E := by
      rw [UInt8.not_le]
      exact UInt8.lt_of_lt_of_le (by decide) negative
    unfold isprint
    rw [decide_eq_false beyond, Bool.and_false]
  have other (d : UInt8) (low : d < 0x80) : c ≠ d := by
    rintro rfl
    exact absurd low (UInt8.not_lt.mpr negative)
  exact ⟨hidden, other _ (by decide), other _ (by decide), other _ (by decide),
    other _ (by decide), other _ (by decide)⟩

/-- So `strDebug` does not come behind a negative character. -/
theorem appendSafe_negative (bounded : Bounded malloc) (granted : malloc 1 = true) (fuel : Nat)
    {v : KVector UInt8} (small : v.capacity ≤ ptrdiffMax) {c : UInt8} (negative : 0x80 ≤ c) :
    (appendSafe malloc fuel true v c = .error .abort ∧ Refused malloc (v.items.length + 2)) ∨
      appendSafe malloc fuel true v c = .error .divergence := by
  rw [appendSafe_unnamed (negative_unnamed negative)]
  rcases append_text bounded small [0x5C, 0x78] with ⟨refused, missing⟩ | ⟨middle, made, -⟩
  · rw [refused]
    exact .inl ⟨rfl, missing⟩
  · rw [made, ok_bind, xtostr_negative granted fuel negative]
    exact .inr rfl

/-! ## The whole text -/

/-- What `strDebug` puts in front of the characters. -/
def debugFront (malloc : Nat → Bool) (fuel length : Nat) : Except Fault (KVector UInt8) := do
  let output ← KVector.empty.append malloc 1 [0x5B, 0x6C, 0x65, 0x6E, 0x3D]
  let number ← dec malloc fuel length 1
  let output ← output.append malloc 1 number
  output.append malloc 1
    [0x2C, 0x63, 0x68, 0x61, 0x72, 0x61, 0x63, 0x74, 0x65, 0x72, 0x73, 0x3D, 0x22]

/-- What it puts together behind that. -/
def debugBack (malloc : Nat → Bool) (output safeStr : KVector UInt8) :
    Except Fault (KVector UInt8) := do
  allocate malloc 1 safeStr.items.length
  let output ← output.append malloc 1 safeStr.items
  output.append malloc 1 [0x22, 0x5D]

/-- The parts of `strDebug`. -/
theorem strDebug_parts (malloc : Nat → Bool) (fuel : Nat) (signedChar : Bool) (str : KStringView) :
    strDebug malloc fuel signedChar str = (do
      let output ← debugFront malloc fuel str.chars.length
      let ⟨safeStr, _⟩ ← KVector.empty.reserve malloc 1 str.chars.length
      let safeStr ← str.chars.foldlM (appendSafe malloc fuel signedChar) safeStr
      debugBack malloc output safeStr) := by
  unfold strDebug debugFront debugBack
  simp only [bind_assoc]

/-- The text in front of the characters. -/
def frontText (length : Nat) : List UInt8 :=
  [0x5B, 0x6C, 0x65, 0x6E, 0x3D] ++ formatted 10 1 length ++
    [0x2C, 0x63, 0x68, 0x61, 0x72, 0x61, 0x63, 0x74, 0x65, 0x72, 0x73, 0x3D, 0x22]

/-- The digits of the length of an object. -/
theorem digits_object {n : Nat} (object : n ≤ ptrdiffMax) :
    max (Nat.digits 10 n).length 1 ≤ 10 := by
  have short : (Nat.digits 10 n).length ≤ 10 := by
    rw [Nat.digits_length_le_iff (by decide)]
    unfold ptrdiffMax at object
    omega
  omega

/-- The powers for these digits are words. -/
theorem object_fits {n : Nat} (object : n ≤ ptrdiffMax) :
    10 ^ max (Nat.digits 10 n).length 1 < 2 ^ 64 :=
  calc
    10 ^ max (Nat.digits 10 n).length 1 ≤ 10 ^ 10 :=
      Nat.pow_le_pow_right (by decide) (digits_object object)
    _ < 2 ^ 64 := by decide

/-- The front is put together, unless memory is refused. -/
theorem debugFront_text (bounded : Bounded malloc) {n : Nat} (object : n ≤ ptrdiffMax) :
    (debugFront malloc 64 n = .error .abort ∧ Refused malloc 28) ∨
      ∃ w, debugFront malloc 64 n = .ok w ∧ Appended KVector.empty w (frontText n) := by
  have digits := digits_object object
  have word : n < 2 ^ 64 := by
    unfold ptrdiffMax at object
    omega
  unfold debugFront
  rcases append_text bounded (v := KVector.empty) (Nat.zero_le _) [0x5B, 0x6C, 0x65, 0x6E, 0x3D] with
    ⟨refused, missing⟩ | ⟨one, made, first⟩
  · rw [refused]
    exact .inl ⟨rfl, missing.mono (by decide)⟩
  · have five : one.items.length = 5 := congrArg List.length first.items
    rw [made, ok_bind]
    unfold dec
    rcases ntostr_of_fits (by decide) (object_fits object) malloc word (by decide) (by decide) with
      ⟨refused, missing⟩ | ⟨str, formats, items⟩
    · rw [refused]
      exact .inl ⟨rfl, Refused.mono missing (by omega)⟩
    · rw [formats, ok_bind]
      have long : str.items.length ≤ 10 := by
        rw [items, length_formatted]
        exact digits
      show (one.append malloc 1 str.items >>= _) = _ ∧ _ ∨
        ∃ w, (one.append malloc 1 str.items >>= _) = _ ∧ _
      rcases append_text bounded first.bounded str.items with ⟨refused, missing⟩ | ⟨two, made, second⟩
      · rw [refused]
        exact .inl ⟨rfl, missing.mono (by omega)⟩
      · have fifteen : two.items.length ≤ 15 := by
          rw [second.items, List.length_append]
          omega
        rw [made, ok_bind]
        rcases append_text bounded second.bounded [0x2C, 0x63, 0x68, 0x61, 0x72, 0x61, 0x63, 0x74,
          0x65, 0x72, 0x73, 0x3D, 0x22] with ⟨refused, missing⟩ | ⟨three, made, third⟩
        · refine .inl ⟨refused, missing.mono ?_⟩
          show two.items.length + 13 ≤ 28
          omega
        · refine .inr ⟨three, made, ?_⟩
          unfold frontText
          rw [← items]
          exact (first.trans second).trans third

/-- The rest comes behind it, unless memory runs out. -/
theorem debugBack_text (bounded : Bounded malloc) {output : KVector UInt8}
    (small : output.capacity ≤ ptrdiffMax) (safeStr : KVector UInt8) :
    debugBack malloc output safeStr = .error .abort ∨
      ∃ w, debugBack malloc output safeStr = .ok w ∧
        Appended output w (safeStr.items ++ [0x22, 0x5D]) := by
  unfold debugBack
  rcases KVector.allocate_cases malloc 1 safeStr.items.length with refused | given
  · rw [refused]
    exact .inl rfl
  · rw [given, ok_bind]
    rcases append_text bounded small safeStr.items with ⟨refused, -⟩ | ⟨one, made, first⟩
    · rw [refused]
      exact .inl rfl
    · rw [made, ok_bind]
      rcases append_text bounded first.bounded [0x22, 0x5D] with ⟨refused, -⟩ | ⟨two, made, second⟩
      · exact .inl refused
      · exact .inr ⟨two, made, first.trans second⟩

/-- A string without negative characters gets its text, unless memory runs out. -/
theorem strDebug_text (bounded : Bounded malloc) {signedChar : Bool} {str : KStringView}
    (natural : ∀ c ∈ str.chars, Natural signedChar c) :
    strDebug malloc 64 signedChar str = .error .abort ∨
      ∃ text, strDebug malloc 64 signedChar str = .ok text ∧ text.items =
        frontText str.chars.length ++ (str.chars.flatMap escaped ++ [0x22, 0x5D]) := by
  rw [strDebug_parts]
  rcases debugFront_text bounded str.object with ⟨refused, -⟩ | ⟨output, made, front⟩
  · rw [refused]
    exact .inl rfl
  · rw [made, ok_bind]
    rcases reserve_object bounded (v := KVector.empty) (Nat.zero_le _) str.chars.length with
      ⟨refused, -⟩ | ⟨⟨room, kept, fits⟩, made, small⟩
    · rw [refused]
      exact .inl rfl
    · rw [made, ok_bind]
      dsimp only
      rcases foldSafe_text bounded small natural with ⟨refused, -⟩ | ⟨safeStr, done, shown⟩
      · rw [refused]
        exact .inl rfl
      · have items : safeStr.items = str.chars.flatMap escaped := by
          rw [shown.items, kept]
          rfl
        rw [done, ok_bind]
        rcases debugBack_text bounded front.bounded safeStr with refused | ⟨text, made, back⟩
        · exact .inl refused
        · refine .inr ⟨text, made, ?_⟩
          rw [back.items, front.items, items]
          rfl

/-! ## The safe text -/

/-- The characters of a formatted number are digits. -/
theorem mem_formatted {base minWidth num : Nat} (least : 2 ≤ base) {c : UInt8}
    (listed : c ∈ formatted base minWidth num) : ∃ d < base, c = UInt8.ofNat d + 0x30 := by
  rcases List.mem_append.mp listed with zero | digit
  · exact ⟨0, by omega, List.eq_of_mem_replicate zero⟩
  · obtain ⟨d, among, rfl⟩ := List.mem_map.mp (List.mem_reverse.mp digit)
    exact ⟨d, Nat.digits_lt_base least among, rfl⟩

/-- Digits are printable, also when they become letters. -/
theorem digit_print : ∀ d < 16, isprint (UInt8.ofNat d + 0x30) ∧
    isprint (if 0x39 < UInt8.ofNat d + 0x30 then UInt8.ofNat d + 0x30 + 39
      else UInt8.ofNat d + 0x30) := by
  decide

/-- An escape is printable. -/
theorem escaped_print (c : UInt8) : ∀ d ∈ escaped c, isprint d := by
  intro d listed
  by_cases print : isprint c
  · unfold escaped at listed
    rw [if_pos print, List.mem_singleton] at listed
    exact listed ▸ print
  · by_cases unnamed : Unnamed c
    · rw [escaped_unnamed unnamed] at listed
      rcases List.mem_append.mp listed with front | number
      · have visible : [0x5C, 0x78].all isprint := by decide
        exact List.all_eq_true.mp visible d front
      · obtain ⟨e, digit, rfl⟩ := List.mem_map.mp number
        obtain ⟨n, small, rfl⟩ := mem_formatted (by decide) digit
        exact (digit_print n small).2
    · rcases named_of_hidden print unnamed with rfl | rfl | rfl | rfl | rfl <;>
        exact List.all_eq_true.mp (by decide) d listed

/-- An escape starts with a backslash, and a printable character is itself. -/
theorem escaped_piece (c : UInt8) :
    if isprint c then escaped c = [c] else (escaped c).head? = some 0x5C := by
  by_cases print : isprint c
  · rw [if_pos print]
    unfold escaped
    rw [if_pos print]
  · rw [if_neg print]
    by_cases unnamed : Unnamed c
    · rw [escaped_unnamed unnamed]
      rfl
    · rcases named_of_hidden print unnamed with rfl | rfl | rfl | rfl | rfl <;> rfl

/-- The text of a string is safe to print. -/
theorem safe_text (chars : List UInt8) (length : Nat) :
    Safe chars (frontText length ++ (chars.flatMap escaped ++ [0x22, 0x5D])) where
  printable := by
    intro c listed
    rcases List.mem_append.mp listed with front | later
    · rcases List.mem_append.mp front with opening | closing
      · rcases List.mem_append.mp opening with words | number
        · have visible : [0x5B, 0x6C, 0x65, 0x6E, 0x3D].all isprint := by decide
          exact List.all_eq_true.mp visible c words
        · obtain ⟨n, small, rfl⟩ := mem_formatted (by decide) number
          exact (digit_print n (Nat.lt_trans small (by decide))).1
      · have visible : [0x2C, 0x63, 0x68, 0x61, 0x72, 0x61, 0x63, 0x74, 0x65, 0x72, 0x73, 0x3D,
            0x22].all isprint := by decide
        exact List.all_eq_true.mp visible c closing
    · rcases List.mem_append.mp later with inside | back
      · obtain ⟨d, -, among⟩ := List.mem_flatMap.mp inside
        exact escaped_print d c among
      · have visible : [0x22, 0x5D].all isprint := by decide
        exact List.all_eq_true.mp visible c back
  inOrder := by
    refine ⟨frontText length, chars.map escaped, [0x22, 0x5D], ?_, ?_⟩
    · rw [← List.flatMap_def]
    · rw [List.forall₂_map_right_iff, List.forall₂_same]
      exact fun c _ => escaped_piece c

/-! ## Less fuel -/

/-- A computation with another amount of fuel does the same or runs out of it. -/
def Cuts {α : Type} (outcome full : Except Fault α) : Prop :=
  outcome = .error .divergence ∨ outcome = full

/-- Two computations in a row that each do the same or run out of fuel. -/
theorem Cuts.bind {α β : Type} {one other : Except Fault α} {next later : α → Except Fault β}
    (first : Cuts one other) (second : ∀ value, Cuts (next value) (later value)) :
    Cuts (one >>= next) (other >>= later) := by
  rcases first with endless | same
  · rw [endless]
    exact .inl rfl
  · rw [same]
    cases other with
    | error fault => exact .inr rfl
    | ok value => exact second value

/-- The first power above a number is one. -/
theorem FirstAbove.unique {num base k l : Nat} (one : FirstAbove num base k)
    (other : FirstAbove num base l) : k = l := by
  rcases Nat.lt_trichotomy k l with before | same | behind
  · exact absurd (other.first k before) (Nat.not_le_of_lt one.above)
  · exact same
  · exact absurd (one.first l behind) (Nat.not_le_of_lt other.above)

/-- The loop over the powers comes to the same end with any fuel that is enough. -/
theorem strLen_cuts {num base : Nat} (fuel : Nat) (least : 2 ≤ base)
    (fits : base ^ max (Nat.digits base num).length 1 < 2 ^ 64) :
    Cuts (strLen num base fuel 1 0) (strLen num base 64 1 0) := by
  have above := firstAbove_of_fits least fits
  have places := places_of_fits least fits
  have full := strLen_above above (Nat.zero_le _) (show (Nat.digits base num).length - 0 < 64 by omega)
  rw [power_zero] at full
  rcases strLen_cases num base fuel 1 0 with endless | ⟨counted, ends⟩
  · exact .inl endless
  · have starts : strLen num base fuel (power base 0) (wrap 0) = .ok counted := by
      rw [power_zero]
      exact ends
    obtain ⟨k, same, rfl⟩ := strLen_ok (fun j before => absurd before (Nat.not_lt_zero j)) starts
    rw [same.unique above] at ends
    exact .inr (ends.trans full.symm)

/-- So does `ntostr`. -/
theorem ntostr_cuts (malloc : Nat → Bool) {num base : Nat} (fuel : Nat) (least : 2 ≤ base)
    (fits : base ^ max (Nat.digits base num).length 1 < 2 ^ 64) :
    Cuts (ntostr malloc fuel num base 1) (ntostr malloc 64 num base 1) := by
  unfold ntostr
  apply Cuts.bind (.inr rfl)
  rintro ⟨str, kept⟩
  dsimp only
  split
  · exact .inr rfl
  · split
    · exact .inr rfl
    · exact Cuts.bind (strLen_cuts fuel least fits) fun len => .inr rfl

/-- And what `strDebug` appends for a character that is not negative. -/
theorem appendSafe_cuts (malloc : Nat → Bool) (fuel : Nat) {signedChar : Bool} (v : KVector UInt8)
    {c : UInt8} (natural : Natural signedChar c) :
    Cuts (appendSafe malloc fuel signedChar v c) (appendSafe malloc 64 signedChar v c) := by
  by_cases unnamed : Unnamed c
  · have short := digits_byte (UInt8.toNat_lt c)
    have fits : 16 ^ max (Nat.digits 16 c.toNat).length 1 < 2 ^ 64 :=
      calc
        16 ^ max (Nat.digits 16 c.toNat).length 1 ≤ 16 ^ 2 :=
          Nat.pow_le_pow_right (by decide) (by omega)
        _ < 2 ^ 64 := by decide
    rw [appendSafe_unnamed unnamed, appendSafe_unnamed unnamed, widened_natural natural]
    apply Cuts.bind (.inr rfl)
    intro v
    apply Cuts.bind _ fun number => .inr rfl
    exact Cuts.bind (ntostr_cuts malloc fuel (by decide) fits) fun str => .inr rfl
  · by_cases print : isprint c
    · unfold appendSafe
      rw [if_pos print, if_pos print]
      exact .inr rfl
    · rcases named_of_hidden print unnamed with rfl | rfl | rfl | rfl | rfl <;> exact .inr rfl

/-- And the loop over such characters. -/
theorem foldSafe_cuts (malloc : Nat → Bool) (fuel : Nat) {signedChar : Bool} (v : KVector UInt8)
    {chars : List UInt8} (natural : ∀ c ∈ chars, Natural signedChar c) :
    Cuts (chars.foldlM (appendSafe malloc fuel signedChar) v)
      (chars.foldlM (appendSafe malloc 64 signedChar) v) := by
  induction chars generalizing v with
  | nil => exact .inr rfl
  | cons c chars ih =>
    rw [List.foldlM_cons, List.foldlM_cons]
    apply Cuts.bind (appendSafe_cuts malloc fuel v (natural c (List.mem_cons_self ..)))
    exact fun w => ih w fun d listed => natural d (List.mem_cons_of_mem c listed)

/-- And the front. -/
theorem debugFront_cuts (malloc : Nat → Bool) (fuel : Nat) {n : Nat} (object : n ≤ ptrdiffMax) :
    Cuts (debugFront malloc fuel n) (debugFront malloc 64 n) := by
  unfold debugFront dec
  apply Cuts.bind (.inr rfl)
  intro output
  apply Cuts.bind _ fun number => .inr rfl
  exact Cuts.bind (ntostr_cuts malloc fuel (by decide) (object_fits object)) fun str => .inr rfl

/-! ## Strings with negative characters -/

/-- A string with a negative character has a first one. -/
theorem first_negative {chars : List UInt8} {c : UInt8} (listed : c ∈ chars) (negative : 0x80 ≤ c) :
    ∃ front d rest, chars = front ++ d :: rest ∧ (∀ e ∈ front, Natural true e) ∧ 0x80 ≤ d := by
  cases found : chars.find? fun d => 0x80 ≤ d with
  | none =>
    have all := List.find?_eq_none.mp found c listed
    exact absurd (decide_eq_true negative) all
  | some d =>
    obtain ⟨high, front, rest, split, low⟩ := List.find?_eq_some_iff_append.mp found
    refine ⟨front, d, rest, split, fun e among => .inr ?_, of_decide_eq_true high⟩
    have small : decide (0x80 ≤ e) = false := by simpa using low e among
    exact UInt8.not_le.mp (of_decide_eq_false small)

/-- Characters that are not negative are in front of every negative one. -/
theorem natural_front {one other rest behind : List UInt8} {c d : UInt8}
    (same : one ++ c :: rest = other ++ d :: behind) (natural : ∀ e ∈ one, Natural true e)
    (negative : 0x80 ≤ d) : one <+: other := by
  have first : one <+: other ++ d :: behind := ⟨c :: rest, same⟩
  apply List.prefix_of_prefix_length_le first (List.prefix_append other _)
  by_contra longer
  have inside : other.length < one.length := Nat.lt_of_not_le longer
  have kept : (one ++ c :: rest)[other.length]? = one[other.length]? :=
    List.getElem?_append_left inside
  have here : one[other.length]? = some d := by
    rw [← kept, same, List.getElem?_append_right (Nat.le_refl _), Nat.sub_self,
      List.getElem?_cons_zero]
  have low := natural d (List.mem_of_getElem? here)
  rcases low with unsigned | small
  · cases unsigned
  · exact absurd negative (UInt8.not_le.mpr small)

/-- A text that is larger than an object is not appended. -/
theorem append_large (bounded : Bounded malloc) {v : KVector UInt8}
    (small : v.capacity ≤ ptrdiffMax) {other : List UInt8}
    (large : ptrdiffMax < v.items.length + other.length) :
    v.append malloc 1 other = .error .abort := by
  rcases append_text bounded small other with ⟨refused, -⟩ | ⟨w, -, appended⟩
  · exact refused
  · have fits := w.fits
    have object := appended.bounded
    rw [appended.items, List.length_append] at fits
    omega

/-- A negative character behind too many escapes aborts for want of memory. -/
theorem strDebug_tooLong (bounded : Bounded malloc) {str : KStringView} {front rest : List UInt8}
    {c : UInt8} (split : str.chars = front ++ c :: rest) (natural : ∀ d ∈ front, Natural true d)
    (negative : 0x80 ≤ c) (large : TooLong front) :
    strDebug malloc 64 true str = .error .abort := by
  rw [strDebug_parts]
  rcases debugFront_text bounded str.object with ⟨refused, -⟩ | ⟨output, made, -⟩
  · rw [refused]
    rfl
  · rw [made, ok_bind]
    rcases reserve_object bounded (v := KVector.empty) (Nat.zero_le _) str.chars.length with
      ⟨refused, -⟩ | ⟨⟨room, kept, fits⟩, made, small⟩
    · rw [refused]
      rfl
    · rw [made, ok_bind]
      dsimp only
      rw [split, List.foldlM_append]
      rcases foldSafe_text bounded small natural with ⟨refused, -⟩ | ⟨safeStr, done, shown⟩
      · rw [refused]
        rfl
      · have long : ptrdiffMax < safeStr.items.length + [(0x5C : UInt8), 0x78].length := by
          rw [shown.items, kept]
          exact large
        rw [done, ok_bind, List.foldlM_cons, appendSafe_unnamed (negative_unnamed negative),
          append_large bounded shown.bounded long]
        rfl

/-- A negative character that is reached never ends with enough memory. -/
theorem strDebug_endless {str : KStringView} {front rest : List UInt8} {c : UInt8}
    (split : str.chars = front ++ c :: rest) (natural : ∀ d ∈ front, Natural true d)
    (negative : 0x80 ≤ c) (fits : ¬TooLong front) (fuel : Nat) :
    strDebug (fun bytes => bytes ≤ ptrdiffMax) fuel true str = .error .divergence := by
  have bounded : Bounded fun bytes => bytes ≤ ptrdiffMax := fun bytes => of_decide_eq_true
  have granted {limit : Nat} (object : limit ≤ ptrdiffMax) :
      ¬Refused (fun bytes => bytes ≤ ptrdiffMax) limit := by
    rintro ⟨bytes, less, missing⟩
    exact of_decide_eq_false missing (Nat.le_trans less object)
  have short : (front.flatMap escaped).length + 2 ≤ ptrdiffMax := Nat.le_of_not_lt fits
  rw [strDebug_parts]
  obtain ⟨output, made, -⟩ := (debugFront_text bounded str.object).resolve_left fun refused =>
    granted (by decide) refused.2
  rcases debugFront_cuts (fun bytes => bytes ≤ ptrdiffMax) fuel str.object with endless | same
  · rw [endless]
    rfl
  · rw [same, made, ok_bind]
    obtain ⟨⟨room, kept, inside⟩, reserved, small⟩ :=
      (reserve_object bounded (v := KVector.empty) (Nat.zero_le _) str.chars.length).resolve_left
        fun refused => granted str.object ⟨_, Nat.le_refl _, refused.2⟩
    rw [reserved, ok_bind]
    dsimp only
    have none : room.items.length = 0 := congrArg List.length kept
    have object : room.capacity ≤ ptrdiffMax := small
    rw [split, List.foldlM_append]
    obtain ⟨safeStr, done, shown⟩ := (foldSafe_text bounded object natural).resolve_left
      fun refused => granted (by omega) refused.2
    rcases foldSafe_cuts (fun bytes => bytes ≤ ptrdiffMax) fuel room natural with endless | same
    · rw [endless]
      rfl
    · have long : safeStr.items.length = (front.flatMap escaped).length := by
        rw [shown.items, List.length_append, none, Nat.zero_add]
      rw [same, done, ok_bind, List.foldlM_cons]
      have ends := (appendSafe_negative bounded (by decide) fuel shown.bounded negative).resolve_left
        fun refused => granted (by omega) refused.2
      rw [ends]
      rfl

/-- On the i386 `strDebug` returns a text that is safe to print, or aborts for want of memory,
exactly when the escapes of the characters in front of every negative one are too long for memory:
so when no character is negative. -/
theorem strDebug_shows_iff (str : KStringView) : Shows true str ↔
    ∀ front c rest, str.chars = front ++ c :: rest → 0x80 ≤ c → TooLong front := by
  constructor
  · intro shows front c rest split negative
    have listed : c ∈ str.chars := by
      rw [split]
      exact List.mem_append_right front (List.mem_cons_self ..)
    obtain ⟨first, d, behind, same, natural, low⟩ := first_negative listed negative
    have shorter : first <+: front := natural_front (same.symm.trans split) natural negative
    by_contra fits
    have less : ¬TooLong first := by
      intro large
      apply fits
      obtain ⟨more, rfl⟩ := shorter
      have sizes : (first.flatMap escaped).length ≤ ((first ++ more).flatMap escaped).length := by
        rw [List.flatMap_append, List.length_append]
        exact Nat.le_add_right _ _
      unfold TooLong at large ⊢
      omega
    obtain ⟨fuel, outcome⟩ := shows (fun bytes => bytes ≤ ptrdiffMax) fun bytes => of_decide_eq_true
    rw [strDebug_endless same natural low less fuel] at outcome
    rcases outcome with refused | ⟨text, made, -⟩
    · cases refused
    · cases made
  · intro condition malloc bounded
    refine ⟨64, ?_⟩
    by_cases natural : ∀ c ∈ str.chars, Natural true c
    · rcases strDebug_text bounded natural with refused | ⟨text, made, items⟩
      · exact .inl refused
      · exact .inr ⟨text, made, items ▸ safe_text str.chars str.chars.length⟩
    · obtain ⟨c, listed, high⟩ : ∃ c ∈ str.chars, 0x80 ≤ c := by
        by_contra none
        exact natural fun c listed => .inr (UInt8.not_le.mp fun high => none ⟨c, listed, high⟩)
      obtain ⟨front, d, rest, split, low, negative⟩ := first_negative listed high
      exact .inl (strDebug_tooLong bounded split low negative (condition front d rest split negative))

/-- A boot command line of one byte that is not ASCII. -/
def negativeView : KStringView := ⟨[0xFF], by decide⟩

/-- With enough memory it is never shown. -/
theorem strDebug_negative : ¬Shows true negativeView := by
  intro shows
  obtain ⟨fuel, outcome⟩ := shows (fun bytes => bytes ≤ ptrdiffMax) fun bytes => of_decide_eq_true
  have fits : ¬TooLong [] := by
    unfold TooLong ptrdiffMax
    decide
  have split : negativeView.chars = [] ++ 0xFF :: [] := rfl
  rw [strDebug_endless split (List.forall_mem_nil _) (by decide) fits fuel] at outcome
  rcases outcome with refused | ⟨text, made, -⟩
  · cases refused
  · cases made

end FelineOS.Logger
