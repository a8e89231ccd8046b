import FelineOS.Kernel.DeviceTree

/-!
# The walk over a flattened tree

A flattened tree that stands in memory as `Body.encode` writes it is walked token by token. The
string functions are correct for the strings that the tree holds (`StringAt.strlen_eq`,
`StringAt.strcmp_iff`, `StringAt.strncmp_iff`), each token is recognised and stepped over by exactly its bytes, and
`forEachFrom_body` follows the recursion of the walk down the tree. The two records of cell sizes
agree with the tree because the properties of a node stand before its subnodes.
-/

namespace FelineOS.DeviceTree

open Library.FlatTree

variable {mem : Memory} {addr i : Nat} {text : List UInt8}

/-! ## Strings -/

/-- A string in memory: its bytes and a zero, at addresses that do not wrap. -/
structure StringAt (mem : Memory) (addr : Nat) (text : List UInt8) : Prop where
  /-- The bytes stand there. -/
  holds : Holds mem addr (text ++ [0])
  /-- None of them is zero. -/
  nonzero : 0 ∉ text
  /-- They lie below the end of the address space. -/
  below : addr + text.length < wordLimit

instance : Decidable (StringAt mem addr text) :=
  decidable_of_iff
    (Holds mem addr (text ++ [0]) ∧ 0 ∉ text ∧ addr + text.length < wordLimit)
    ⟨fun ⟨holds, nonzero, below⟩ => ⟨holds, nonzero, below⟩,
      fun string => ⟨string.holds, string.nonzero, string.below⟩⟩

/-- The bytes of a string, read as the functions of the library do. -/
theorem StringAt.read (string : StringAt mem addr text) (inside : i ≤ text.length) :
    mem (wrap (addr + i)) = text.getD i 0 := by
  have below := string.below
  rw [wrap_of_lt (by omega), string.holds.getElem (by simpa using Nat.lt_succ_of_le inside)]
  by_cases last : i = text.length
  · subst last
    simp
  · have before : i < text.length := Nat.lt_of_le_of_ne inside last
    simp [before]

/-- A byte of the string is not zero. -/
theorem getD_ne_zero (nonzero : 0 ∉ text) (inside : i < text.length) :
    text.getD i 0 ≠ 0 := by
  intro zero
  have here : text[i] = 0 := by simpa [inside] using zero
  exact nonzero (here ▸ List.getElem_mem inside)

/-- `strlen` of a string. -/
theorem StringAt.strlen_eq (string : StringAt mem addr text) {fuel : Nat}
    (enough : text.length < fuel) : strlen mem fuel addr = .ok text.length := by
  induction text generalizing addr fuel with
  | nil =>
    cases fuel with
    | zero => simp at enough
    | succ fuel =>
      have stop : mem addr = 0 := string.holds.1
      simp [strlen, stop]
  | cons b text ih =>
    cases fuel with
    | zero => simp at enough
    | succ fuel =>
      have first : mem addr = b := string.holds.1
      have nonzero : b ≠ 0 := fun zero => string.nonzero (by simp [zero])
      have below := string.below
      rw [List.length_cons] at below enough
      have rest : StringAt mem (addr + 1) text :=
        ⟨string.holds.2, fun zero => string.nonzero (List.mem_cons_of_mem b zero), by omega⟩
      have short : text.length < fuel := by omega
      simp only [strlen, first, if_neg nonzero, wrap_of_lt (show addr + 1 < wordLimit by omega),
        ih rest short, ok_bind]
      rfl

/-- The rest of a string starts with its byte at the index. -/
theorem drop_eq_getD_cons (inside : i < text.length) :
    text.drop i = text.getD i 0 :: text.drop (i + 1) := by
  rw [List.drop_eq_getElem_cons inside]
  congr 1
  simp [inside]

/-- A comparison that stops at a difference and goes on where there is none. -/
theorem compare_iff {a b : UInt8} {rest : Int} :
    (if a < b then -1 else if b < a then 1 else rest) = 0 ↔ a = b ∧ rest = 0 := by
  split
  · rename_i below
    simp [UInt8.ne_of_lt below]
  · split
    · rename_i above
      simp [Ne.symm (UInt8.ne_of_lt above)]
    · rename_i below above
      have same : a = b := UInt8.le_antisymm (UInt8.not_lt.mp above) (UInt8.not_lt.mp below)
      simp [same]

/-- The loop of `strcmp` returns zero exactly when the strings agree from the index on. -/
theorem StringAt.strcmpFrom_iff {lhs : List UInt8} (string : StringAt mem addr text)
    (nonzero : 0 ∉ lhs) {remaining : Nat} (enough : lhs.length + 1 ≤ remaining + i)
    (left : i ≤ lhs.length) (right : i ≤ text.length) :
    strcmpFrom mem lhs addr remaining i = 0 ↔ lhs.drop i = text.drop i := by
  induction remaining generalizing i with
  | zero => omega
  | succ remaining ih =>
    simp only [strcmpFrom, string.read right]
    rw [compare_iff]
    rcases Nat.lt_or_eq_of_le left with leftMore | leftEnd
    · rw [drop_eq_getD_cons leftMore]
      have first := getD_ne_zero nonzero leftMore
      rcases Nat.lt_or_eq_of_le right with rightMore | rightEnd
      · rw [if_neg (getD_ne_zero string.nonzero rightMore), ih (by omega) leftMore rightMore,
          drop_eq_getD_cons rightMore, List.cons.injEq]
      · have stop : text.getD i 0 = 0 := by simp [rightEnd]
        rw [stop, List.drop_of_length_le (Nat.le_of_eq rightEnd.symm)]
        exact iff_of_false (fun same => first same.1) (List.cons_ne_nil _ _)
    · have stop : lhs.getD i 0 = 0 := by simp [leftEnd]
      rw [stop, List.drop_of_length_le (Nat.le_of_eq leftEnd.symm)]
      rcases Nat.lt_or_eq_of_le right with rightMore | rightEnd
      · have first := getD_ne_zero string.nonzero rightMore
        rw [drop_eq_getD_cons rightMore]
        exact iff_of_false (fun same => first same.1.symm) (List.cons_ne_nil _ _).symm
      · simp [rightEnd]

/-- `strcmp` returns zero exactly for equal strings. -/
theorem StringAt.strcmp_iff {lhs : List UInt8} (string : StringAt mem addr text)
    (nonzero : 0 ∉ lhs) (short : lhs.length < uintptrMax) :
    strcmp mem lhs addr = 0 ↔ lhs = text := by
  unfold strcmp
  rw [string.strcmpFrom_iff nonzero (by omega) (Nat.zero_le _) (Nat.zero_le _)]
  simp

/-- The loop of `strncmp` returns zero exactly when the string goes on with the rest of the left
one. -/
theorem StringAt.strncmpFrom_iff {lhs : List UInt8} (string : StringAt mem addr text)
    (nonzero : 0 ∉ lhs) {remaining : Nat} (sum : remaining + i = lhs.length)
    (right : i ≤ text.length) :
    strncmpFrom mem lhs addr remaining i = 0 ↔ lhs.drop i <+: text.drop i := by
  induction remaining generalizing i with
  | zero =>
    have all : lhs.drop i = [] := List.drop_of_length_le (by omega)
    simp [strncmpFrom, all]
  | succ remaining ih =>
    have leftMore : i < lhs.length := by omega
    simp only [strncmpFrom, string.read right]
    rw [compare_iff]
    rw [drop_eq_getD_cons leftMore]
    rcases Nat.lt_or_eq_of_le right with rightMore | rightEnd
    · rw [ih (by omega) rightMore, drop_eq_getD_cons rightMore, List.cons_prefix_cons]
    · have first := getD_ne_zero nonzero leftMore
      have stop : text.getD i 0 = 0 := by simp [rightEnd]
      rw [stop, List.drop_of_length_le (Nat.le_of_eq rightEnd.symm), List.prefix_nil]
      exact iff_of_false (fun same => first same.1) (List.cons_ne_nil _ _)

/-- `strncmp` with the length of the left string returns zero exactly when that is the beginning of
the other. -/
theorem StringAt.strncmp_iff {lhs : List UInt8} (string : StringAt mem addr text)
    (nonzero : 0 ∉ lhs) : strncmp mem lhs addr = 0 ↔ lhs <+: text := by
  unfold strncmp
  rw [string.strncmpFrom_iff nonzero (by omega) (Nat.zero_le _)]
  simp

/-! ## Tokens -/

/-- A token is recognised. -/
theorem nodeType_eq {token : Nat} (holds : Holds mem addr (bytesBE 4 token))
    (small : token < 256 ^ 4) : nodeType mem addr = .ofWord token := by
  unfold nodeType
  rw [readBE_bytesBE holds, Nat.mod_eq_of_lt small]

/-- `pad_len` is the length with the padding. -/
theorem padLen_eq {bytes : List UInt8} (below : (padded bytes).length < wordLimit) :
    padLen bytes.length = (padded bytes).length := by
  rw [length_padded] at below ⊢
  unfold padLen
  split
  · omega
  · rw [wrap_of_lt (by omega)]
    omega

/-- A token without content is stepped over. -/
theorem increment_token {token : Nat} (holds : Holds mem addr (bytesBE 4 token))
    (kind : token = 2 ∨ token = 4) (below : addr + 4 < wordLimit) :
    incrementFdtStruct mem addr = .ok (addr + 4) := by
  unfold incrementFdtStruct
  rcases kind with rfl | rfl
  · rw [nodeType_eq holds (by decide)]
    simp [NodeType.ofWord, wrap_of_lt below, pure, Except.pure]
  · rw [nodeType_eq holds (by decide)]
    simp [NodeType.ofWord, wrap_of_lt below, pure, Except.pure]

section Node

variable {name : List UInt8} (begins : Holds mem addr (bytesBE 4 1))
  (named : Holds mem (addr + 4) (padded (name ++ [0]))) (nonzero : 0 ∉ name)
  (below : addr + 4 + (padded (name ++ [0])).length < wordLimit)

include named nonzero below

/-- The name of a node is a string. -/
theorem nodeName_string : nodeName addr = addr + 4 ∧ StringAt mem (addr + 4) name := by
  have long := length_padded (name ++ [0])
  rw [List.length_append, List.length_singleton] at long
  refine ⟨wrap_of_lt (by omega), (holds_append.mp named).1, nonzero, by omega⟩

include begins

/-- The start of a node is stepped over with its name. -/
theorem increment_node :
    incrementFdtStruct mem addr = .ok (addr + 4 + (padded (name ++ [0])).length) := by
  obtain ⟨place, string⟩ := nodeName_string named nonzero below
  have bound := string.below
  have long := length_padded (name ++ [0])
  have size : (name ++ [0]).length = name.length + 1 := by simp
  unfold incrementFdtStruct
  rw [nodeType_eq begins (by decide)]
  simp only [NodeType.ofWord, place, string.strlen_eq (show name.length < wordLimit by omega),
    ok_bind]
  have padding := padLen_eq (show (padded (name ++ [0])).length < wordLimit by omega)
  rw [size] at padding
  rw [wrap_of_lt (show name.length + 1 < wordLimit by omega), padding, wrap_of_lt below]
  rfl

end Node

section Property

variable {p : Property} (holds : Holds mem addr p.encode)
  (below : addr + p.encode.length < wordLimit)

include holds

/-- The parts of the bytes of a property. -/
theorem property_parts : Holds mem addr (bytesBE 4 3) ∧
    Holds mem (addr + 4) (bytesBE 4 p.value.length) ∧
    Holds mem (addr + 8) (bytesBE 4 p.nameOffset) ∧ Holds mem (addr + 12) p.value := by
  unfold Property.encode at holds
  simp only [holds_append, length_bytesBE, padded, Nat.add_assoc] at holds
  obtain ⟨token, length, offset, value, -⟩ := holds
  exact ⟨token, length, offset, value⟩

include below

/-- A property is recognised, and its name and words are read. -/
theorem property_fields (wf : p.WellFormed) : nodeType mem addr = .prop ∧
    propLen mem addr = p.value.length ∧ propNameoff mem addr = p.nameOffset := by
  obtain ⟨token, length, offset, -⟩ := property_parts holds
  have long := p.length_encode
  refine ⟨nodeType_eq token (by decide), ?_, ?_⟩
  · unfold propLen
    rw [wrap_of_lt (by omega), readBE_bytesBE length, Nat.mod_eq_of_lt wf.length]
  · unfold propNameoff
    rw [wrap_of_lt (by omega), readBE_bytesBE offset, Nat.mod_eq_of_lt wf.offset]

/-- A property is stepped over. -/
theorem increment_property (wf : p.WellFormed) :
    incrementFdtStruct mem addr = .ok (addr + p.encode.length) := by
  obtain ⟨type, length, -⟩ := property_fields holds below wf
  have long := p.length_encode
  unfold incrementFdtStruct
  rw [type]
  simp only [length, padLen_eq (show (padded p.value).length < wordLimit by omega)]
  rw [wrap_of_lt (by omega), long]
  simp [pure, Except.pure, Nat.add_assoc]

/-- A word of the value that is there. -/
theorem propValue_eq {k : Nat} (inside : 4 * k + 4 ≤ p.value.length) :
    propValue mem addr k = numberBE ((p.value.drop (4 * k)).take 4) := by
  obtain ⟨-, -, -, value⟩ := property_parts holds
  have long := p.length_encode
  have padding := length_padded p.value
  have parts : p.value = p.value.take (4 * k) ++
      ((p.value.drop (4 * k)).take 4 ++ (p.value.drop (4 * k)).drop 4) := by
    rw [List.take_append_drop, List.take_append_drop]
  rw [parts, holds_append, holds_append] at value
  have word := value.2.1.readBE_eq
  have width : ((p.value.drop (4 * k)).take 4).length = 4 := by
    rw [List.length_take, List.length_drop]
    omega
  have start : (p.value.take (4 * k)).length = 4 * k := by
    rw [List.length_take]
    omega
  rw [width, start] at word
  unfold propValue
  rw [wrap_of_lt (by omega)]
  exact word

end Property

/-! ## The walk -/

/-- The cell sizes of a tree, as the walk holds them. -/
def CellSize.of (c : Cells) : CellSize := ⟨c.address, c.size⟩

variable {blob : Blob} {σ : Type}

/-- The name of a property is found in the strings block. -/
theorem propName_eq {p : Property} (holds : Holds blob.mem addr p.encode)
    (below : addr + p.encode.length < wordLimit) (wf : p.WellFormed)
    (named : StringAt blob.mem (blob.strings + p.nameOffset) p.name) :
    blob.propName addr = blob.strings + p.nameOffset := by
  obtain ⟨-, -, offset⟩ := property_fields holds below wf
  have inside := named.below
  unfold Blob.propName
  rw [offset, wrap_of_lt (by omega)]

/-- The cell sizes after a property are those of the tree. -/
theorem readCells_eq {p : Property} (holds : Holds blob.mem addr p.encode)
    (below : addr + p.encode.length < wordLimit) (wf : p.WellFormed)
    (named : StringAt blob.mem (blob.strings + p.nameOffset) p.name) (c : Cells) :
    blob.readCells addr (.of c) = .of (c.read p) := by
  have place := propName_eq holds below wf named
  have first : 4 ≤ p.value.length → propValue blob.mem addr 0 = p.cell := by
    intro long
    rw [propValue_eq holds below (by omega)]
    rfl
  have address : strcmp blob.mem (ascii "#address-cells") (blob.strings + p.nameOffset) = 0 ↔
      p.name = addressCells := (named.strcmp_iff (by decide) (by decide)).trans eq_comm
  have size : strcmp blob.mem (ascii "#size-cells") (blob.strings + p.nameOffset) = 0 ↔
      p.name = sizeCells := (named.strcmp_iff (by decide) (by decide)).trans eq_comm
  unfold Blob.readCells Cells.read
  simp only [place, address, size]
  by_cases isAddress : p.name = addressCells
  · rw [if_pos isAddress, if_pos isAddress, first (wf.cell (.inl isAddress))]
    rfl
  · rw [if_neg isAddress, if_neg isAddress]
    by_cases isSize : p.name = sizeCells
    · rw [if_pos isSize, if_pos isSize, first (wf.cell (.inr isSize))]
      rfl
    · rw [if_neg isSize, if_neg isSize]

/-- The properties that the callback is called for. -/
def visited (leading : List UInt8) (occurrences : List Occurrence) : List Occurrence :=
  occurrences.filter fun o => leading.isPrefixOf o.owner

/-- The calls for a list of properties, one after the other. -/
def callEach (callback : Nat → CellSize → σ → Except Fault σ) (occurrences : List Occurrence)
    (state : σ) : Except Fault σ :=
  occurrences.foldlM (fun state o => callback o.entry (.of o.cells) state) state

section Walk

variable {leading : List UInt8} {callback : Nat → CellSize → σ → Except Fault σ} {fuel : Nat}

/-- The token that ends a node ends its level, behind the token. -/
theorem forEachFrom_endNode (ends : Holds blob.mem addr (bytesBE 4 2))
    (below : addr + 4 < wordLimit) (usecallback : Bool) (curr next : CellSize) (state : σ) :
    blob.forEachFrom leading callback (fuel + 1) usecallback curr next addr state =
      .ok (addr + 4, state) := by
  simp only [Blob.forEachFrom, nodeType_eq ends (by decide), NodeType.ofWord,
    increment_token ends (.inl rfl) below]
  rfl

/-- The token that ends the document ends the level at the token. -/
theorem forEachFrom_stop (ends : Holds blob.mem addr (bytesBE 4 9))
    (usecallback : Bool) (curr next : CellSize) (state : σ) :
    blob.forEachFrom leading callback (fuel + 1) usecallback curr next addr state =
      .ok (addr, state) := by
  simp only [Blob.forEachFrom, nodeType_eq ends (by decide), NodeType.ofWord]
  rfl

/-- A token without meaning is passed. -/
theorem forEachFrom_nop (token : Holds blob.mem addr (bytesBE 4 4)) (below : addr + 4 < wordLimit)
    (usecallback : Bool) (curr next : CellSize) (state : σ) :
    blob.forEachFrom leading callback (fuel + 1) usecallback curr next addr state =
      blob.forEachFrom leading callback fuel usecallback curr next (addr + 4) state := by
  simp only [Blob.forEachFrom, nodeType_eq token (by decide), NodeType.ofWord,
    increment_token token (.inr rfl) below]
  rfl

/-- At a property the callback is called if it is wanted, and the cell sizes are read. -/
theorem forEachFrom_prop {p : Property} (holds : Holds blob.mem addr p.encode)
    (below : addr + p.encode.length < wordLimit) (wf : p.WellFormed)
    (named : StringAt blob.mem (blob.strings + p.nameOffset) p.name)
    (usecallback : Bool) (curr : CellSize) (next : Cells) (state : σ) :
    blob.forEachFrom leading callback (fuel + 1) usecallback curr (.of next) addr state =
      (do
        let state ← if usecallback then callback addr curr state else pure state
        blob.forEachFrom leading callback fuel usecallback curr (.of (next.read p))
          (addr + p.encode.length) state) := by
  obtain ⟨type, -, -⟩ := property_fields holds below wf
  simp only [Blob.forEachFrom, type, readCells_eq holds below wf named,
    increment_property holds below wf]
  rfl

/-- At a subnode the walk goes down, with the name deciding on the calls, and then on. -/
theorem forEachFrom_node (nonzero : 0 ∉ leading) {name : List UInt8}
    (begins : Holds blob.mem addr (bytesBE 4 1))
    (named : Holds blob.mem (addr + 4) (padded (name ++ [0]))) (string : 0 ∉ name)
    (below : addr + 4 + (padded (name ++ [0])).length < wordLimit)
    (usecallback : Bool) (curr next : CellSize) (state : σ) :
    blob.forEachFrom leading callback (fuel + 1) usecallback curr next addr state =
      (do
        let (node, state) ← blob.forEachFrom leading callback fuel (leading.isPrefixOf name) next
          (.of .standard) (addr + 4 + (padded (name ++ [0])).length) state
        blob.forEachFrom leading callback fuel usecallback curr next node state) := by
  obtain ⟨place, text⟩ := nodeName_string named string below
  have matching : decide (strncmp blob.mem leading (addr + 4) = 0) = leading.isPrefixOf name := by
    rw [Bool.eq_iff_iff, decide_eq_true_iff, text.strncmp_iff nonzero, List.isPrefixOf_iff_prefix]
  simp only [Blob.forEachFrom, nodeType_eq begins (by decide), NodeType.ofWord, place, matching,
    increment_node begins named string below]
  rfl

/-- The calls for a list, the first one apart. -/
theorem callEach_cons (o : Occurrence) (xs : List Occurrence) (state : σ) :
    callEach callback (o :: xs) state =
      (do
        let state ← callback o.entry (.of o.cells) state
        callEach callback xs state) := List.foldlM_cons

/-- The calls for two lists, one after the other. -/
theorem callEach_append (xs ys : List Occurrence) (state : σ) :
    callEach callback (xs ++ ys) state =
      (do
        let state ← callEach callback xs state
        callEach callback ys state) := List.foldlM_append

/-- The first property of a list is visited when its node matches. -/
theorem visited_cons (o : Occurrence) (occurrences : List Occurrence) :
    visited leading (o :: occurrences) =
      if leading.isPrefixOf o.owner then o :: visited leading occurrences
      else visited leading occurrences := List.filter_cons

/-- The visited properties of two lists. -/
theorem visited_append (xs ys : List Occurrence) :
    visited leading (xs ++ ys) = visited leading xs ++ visited leading ys := List.filter_append ..

/-- A walk over what stands in a node calls for its properties and for those below it, and then
does what the token behind it says. -/
theorem forEachFrom_body (nonzero : 0 ∉ leading) {b : Body} (owner : List UInt8)
    (parent own next : Cells) {usecallback : Bool} {final : Nat} (state : σ)
    (holds : Holds blob.mem addr b.encode) (wf : b.WellFormed)
    (below : addr + b.encode.length < wordLimit)
    (named : ∀ o ∈ b.occurrences owner parent own addr,
      StringAt blob.mem (blob.strings + o.property.nameOffset) o.property.name)
    (matching : b.props ≠ [] → usecallback = leading.isPrefixOf owner)
    (cells : b.props.foldl Cells.read next = own)
    (stops : ∀ (fuel : Nat) (next : CellSize) (state : σ),
      blob.forEachFrom leading callback (fuel + 1) usecallback (.of parent) next
        (addr + b.encode.length) state = .ok (final, state))
    (enough : b.steps ≤ fuel) :
    blob.forEachFrom leading callback fuel usecallback (.of parent) (.of next) addr state =
      (do
        let state ← callEach callback (visited leading (b.occurrences owner parent own addr)) state
        pure (final, state)) := by
  -- The cursor, the two records of cell sizes and the terminator change on the way down the tree.
  induction b generalizing addr owner parent own next usecallback final state fuel with
  | done =>
    cases fuel with
    | zero => simp [Body.steps] at enough
    | succ fuel => exact stops fuel (.of next) state
  | nop rest ih =>
    cases fuel with
    | zero => simp [Body.steps] at enough
    | succ fuel =>
      obtain ⟨token, behind⟩ := holds_append.mp holds
      have length : (Body.nop rest).encode.length = 4 + rest.encode.length := by
        simp [Body.encode]
      rw [length] at below stops
      rw [length_bytesBE] at behind
      rw [forEachFrom_nop token (by omega)]
      refine ih owner parent own next state behind wf (by omega) named matching cells ?_
        (Nat.le_of_succ_le_succ enough)
      rwa [Nat.add_assoc]
  | prop p rest ih =>
    cases fuel with
    | zero => simp [Body.steps] at enough
    | succ fuel =>
      obtain ⟨here, behind⟩ := holds_append.mp holds
      have length : (Body.prop p rest).encode.length = p.encode.length + rest.encode.length := by
        simp [Body.encode]
      rw [length] at below stops
      -- Only here does it matter whether the level calls.
      have wanted : usecallback = leading.isPrefixOf owner := matching (List.cons_ne_nil _ _)
      have onward (state : σ) := ih owner parent own (next.read p) state behind wf.2 (by omega)
        (fun o inside => named o (List.mem_cons_of_mem _ inside)) (fun _ => wanted) cells
        (by rwa [Nat.add_assoc]) (Nat.le_of_succ_le_succ enough)
      rw [forEachFrom_prop here (by omega) wf.1 (named _ List.mem_cons_self)]
      simp only [onward, Body.occurrences, visited_cons, ← wanted]
      cases usecallback with
      | false => rfl
      | true => exact (bind_assoc _ _ _).symm
  | node name inner rest ihInner ihRest =>
    cases fuel with
    | zero => simp [Body.steps] at enough
    | succ fuel =>
      obtain ⟨string, wfInner, noProps, wfRest⟩ := wf
      -- The properties of this node have all been passed, so its cell sizes are final.
      have same : next = own := by
        rw [← cells]
        simp [Body.props, noProps]
      subst same
      have length : (Body.node name inner rest).encode.length =
          4 + ((padded (name ++ [0])).length +
            (inner.encode.length + (4 + rest.encode.length))) := by
        simp [Body.encode]
      rw [length] at below stops
      simp only [Body.encode, holds_append, length_bytesBE] at holds
      obtain ⟨begins, title, insideHolds, ends, behind⟩ := holds
      have fewer := Nat.le_of_succ_le_succ enough
      have down := ihInner name next (cellsOf inner.props) .standard state insideHolds wfInner
        (by omega)
        (fun o inside => named o (List.mem_append_left _ inside)) (fun _ => rfl)
        (foldl_read_standard _)
        (fun fuel cells state => forEachFrom_endNode ends (by omega) _ _ cells state)
        (Nat.le_trans (Nat.le_max_left _ _) fewer)
      have onward (state : σ) := ihRest owner parent next next state behind wfRest (by omega)
        (fun o inside => named o (List.mem_append_right _ inside)) (fun more => absurd noProps more)
        (by simp [noProps]) (by simpa only [Nat.add_assoc] using stops)
        (Nat.le_trans (Nat.le_max_right _ _) fewer)
      rw [forEachFrom_node nonzero begins title string (by omega), down]
      simp only [bind_assoc, pure_bind, onward, Body.occurrences, visited_append, callEach_append]

end Walk

/-- A well-formed tree is encoded in memory, at addresses that do not wrap, with the names of its
properties in the strings block. -/
structure Blob.Encodes (blob : Blob) (tree : DeviceTree) : Prop where
  /-- The tree can be written. -/
  wf : tree.WellFormed
  /-- Its bytes stand in the structure block. -/
  bytes : Holds blob.mem blob.structs tree.encode
  /-- They lie below the end of the address space. -/
  below : blob.structs + tree.encode.length ≤ wordLimit
  /-- The names stand where the properties say. -/
  named : ∀ o ∈ tree.occurrences blob.structs,
    StringAt blob.mem (blob.strings + o.property.nameOffset) o.property.name

instance (tree : DeviceTree) : Decidable (blob.Encodes tree) :=
  decidable_of_iff
    (tree.WellFormed ∧ Holds blob.mem blob.structs tree.encode ∧
      blob.structs + tree.encode.length ≤ wordLimit ∧
      ∀ o ∈ tree.occurrences blob.structs,
        StringAt blob.mem (blob.strings + o.property.nameOffset) o.property.name)
    ⟨fun ⟨wf, bytes, below, named⟩ => ⟨wf, bytes, below, named⟩,
      fun encodes => ⟨encodes.wf, encodes.bytes, encodes.below, encodes.named⟩⟩

/-- The walk over a tree calls for exactly the properties of the nodes that match. -/
theorem Blob.Encodes.forEachPropInNode_eq {tree : DeviceTree} (encodes : blob.Encodes tree)
    {leading : List UInt8} (nonzero : 0 ∉ leading) {fuel : Nat} (enough : tree.top.steps ≤ fuel)
    (callback : Nat → CellSize → σ → Except Fault σ) (state : σ) :
    blob.forEachPropInNode leading callback fuel state =
      callEach callback (visited leading (tree.occurrences blob.structs)) state := by
  obtain ⟨bytes, ends⟩ := holds_append.mp encodes.bytes
  have below := encodes.below
  unfold DeviceTree.encode at below
  rw [List.length_append, length_bytesBE] at below
  have walk :
      blob.forEachFrom leading callback fuel false .initial .initial blob.structs state = _ :=
    forEachFrom_body nonzero [] .standard .standard .standard state bytes encodes.wf.top (by omega)
      encodes.named (fun more => absurd tree.props_top more) (by simp)
      (fun _ next state => forEachFrom_stop ends _ _ next state) enough
  unfold Blob.forEachPropInNode
  rw [walk]
  simp only [bind_assoc, pure_bind, bind_pure]
  rfl

section Occurrence

variable {tree : DeviceTree} (encodes : blob.Encodes tree) {o : Occurrence}
  (occurs : o ∈ tree.occurrences blob.structs)

include encodes occurs

/-- A property of an encoded tree stands in memory, below the end of the address space. -/
theorem Blob.Encodes.occurrence :
    Holds blob.mem o.entry o.property.encode ∧ o.entry + o.property.encode.length < wordLimit ∧
      o.property.WellFormed := by
  have below := encodes.below
  unfold DeviceTree.encode at below
  rw [List.length_append, length_bytesBE] at below
  have bounds := Body.entry_bounds _ o occurs
  exact ⟨Body.occurrences_holds (holds_append.mp encodes.bytes).1 o occurs, by omega,
    encodes.wf.top.occurrences o occurs⟩

/-- A property of an encoded tree is known by its name. -/
theorem Blob.Encodes.strcmp_propName {name : List UInt8} (nonzero : 0 ∉ name)
    (short : name.length < uintptrMax) :
    strcmp blob.mem name (blob.propName o.entry) = 0 ↔ o.property.name = name := by
  obtain ⟨holds, below, wf⟩ := encodes.occurrence occurs
  have named := encodes.named o occurs
  rw [propName_eq holds below wf named, named.strcmp_iff nonzero short, eq_comm]

/-- A word in the value of a property of an encoded tree. -/
theorem Blob.Encodes.propValue_eq {k : Nat} (inside : 4 * k + 4 ≤ o.property.value.length) :
    propValue blob.mem o.entry k = numberBE ((o.property.value.drop (4 * k)).take 4) := by
  obtain ⟨holds, below, -⟩ := encodes.occurrence occurs
  exact DeviceTree.propValue_eq holds below inside

end Occurrence

/-- On every well-formed tree `for_each_prop_in_node` ends, and calls in the order of the document
exactly once for each property of each node whose name starts with the prefix, with the entry of
the property and the cell sizes of the node's parent. -/
theorem forEachPropInNode_exact {tree : DeviceTree} (encodes : blob.Encodes tree)
    {leading : List UInt8} (nonzero : 0 ∉ leading) {fuel : Nat} (enough : tree.top.steps ≤ fuel)
    (callback : Nat → CellSize → σ → Except Fault σ) (state : σ) :
    blob.forEachPropInNode leading callback fuel state =
        callEach callback (visited leading (tree.occurrences blob.structs)) state ∧
      (∀ o ∈ tree.occurrences blob.structs, Holds blob.mem o.entry o.property.encode) ∧
      (tree.occurrences blob.structs).Pairwise (·.entry < ·.entry) :=
  ⟨encodes.forEachPropInNode_eq nonzero enough callback state,
    Body.occurrences_holds (holds_append.mp encodes.bytes).1, Body.occurrences_ordered _⟩

/-- The names of the properties of the small trees here. -/
def nameTable : List UInt8 :=
  ascii "reg" ++ [0] ++ ascii "#address-cells" ++ [0] ++ ascii "#size-cells" ++ [0]

/-- The property `reg` in a tree with these names. -/
def regOf (value : List UInt8) : Property := ⟨ascii "reg", 0, value⟩

/-- The property `#address-cells` in a tree with these names. -/
def addressCellsOf (cells : Nat) : Property := ⟨ascii "#address-cells", 4, bytesBE 4 cells⟩

/-- The property `#size-cells` in a tree with these names. -/
def sizeCellsOf (cells : Nat) : Property := ⟨ascii "#size-cells", 19, bytesBE 4 cells⟩

/-- A tree in memory at 4096, with the names behind it. -/
def blobOf (tree : DeviceTree) : Blob where
  mem addr := (tree.encode ++ nameTable).getD (addr - 4096) 0
  structs := 4096
  strings := 4096 + tree.encode.length

/-- A tree with a memory node in a parent that gives one word for an address, and a device whose
parent gives none. -/
def smallTree : DeviceTree where
  before := 1
  name := []
  body := .nop (.prop (addressCellsOf 1) (.node (ascii "memory@0")
    (.prop (regOf (bytesBE 4 0 ++ bytesBE 4 4096)) (.nop (.node (ascii "memory-bank")
      (.prop (regOf (bytesBE 8 5)) .done) .done)))
    (.node (ascii "uart") (.prop (regOf []) .done) .done)))
  behind := 1

/-- The small tree is encoded. -/
theorem encodes_small : (blobOf smallTree).Encodes smallTree := by decide +kernel

/-- The two properties of the small tree that belong to nodes whose name starts with `memory`. -/
theorem forEachPropInNode_exact_small :
    (visited (ascii "memory") (smallTree.occurrences 4096)).map (fun o => (o.owner, o.cells)) =
        [(ascii "memory@0", ⟨1, 1⟩), (ascii "memory-bank", ⟨2, 1⟩)] ∧
      (blobOf smallTree).forEachPropInNode (ascii "memory")
          (fun entry cells calls => .ok (calls ++ [(entry, cells)])) 16 [] =
        callEach (fun entry cells calls => .ok (calls ++ [(entry, cells)]))
          (visited (ascii "memory") (smallTree.occurrences 4096)) [] :=
  ⟨by decide +kernel,
    (forEachPropInNode_exact encodes_small (by decide) (by decide +kernel) _ []).1⟩

end FelineOS.DeviceTree
