import Mathlib.Algebra.Group.Nat.Defs
import Mathlib.Algebra.GroupWithZero.Nat
import Mathlib.Data.List.Induction
import Mathlib.Tactic.Common

/-!
# Flattened trees

The structure block of a flattened device tree: nodes with a name, properties and subnodes, written
one after the other as tokens, padded to four bytes, in big-endian order. `Body` is what stands in
one node behind its name, as a list of entries that end with `done`; tokens without meaning may
stand between the others. `Body.encode` are the bytes and `Body.occurrences` the properties in the
order of the document, each with the node it belongs to, the cell sizes of that node's parent and
the address of its token.
-/

namespace Library.FlatTree

/-! ## Bytes in memory -/

/-- A byte at every address. -/
abbrev Memory := Nat → UInt8

/-- The bytes stand in memory from the address on. -/
def Holds (mem : Memory) : Nat → List UInt8 → Prop
  | _, [] => True
  | addr, b :: bytes => mem addr = b ∧ Holds mem (addr + 1) bytes

variable {mem : Memory} {addr : Nat} {xs ys : List UInt8}

instance decidableHolds : (addr : Nat) → (bytes : List UInt8) → Decidable (Holds mem addr bytes)
  | _, [] => .isTrue trivial
  | addr, b :: bytes =>
    have := decidableHolds (addr + 1) bytes
    inferInstanceAs (Decidable (mem addr = b ∧ Holds mem (addr + 1) bytes))

/-- Bytes one after the other. -/
theorem holds_append :
    Holds mem addr (xs ++ ys) ↔ Holds mem addr xs ∧ Holds mem (addr + xs.length) ys := by
  induction xs generalizing addr with
  | nil => simp [Holds]
  | cons b xs ih =>
    have sum : addr + 1 + xs.length = addr + (xs.length + 1) := by omega
    simp only [List.cons_append, Holds, ih, List.length_cons, and_assoc, sum]

/-- One of the bytes. -/
theorem Holds.getElem (holds : Holds mem addr xs) {i : Nat} (inside : i < xs.length) :
    mem (addr + i) = xs[i] := by
  induction xs generalizing addr i with
  | nil => simp at inside
  | cons b xs ih =>
    cases i with
    | zero => exact holds.1
    | succ i =>
      have later := ih holds.2 (by simpa using inside)
      rw [List.getElem_cons_succ, ← later]
      congr 1
      omega

/-- The bytes of a number, most significant first. -/
def bytesBE : Nat → Nat → List UInt8
  | 0, _ => []
  | width + 1, n => bytesBE width (n / 256) ++ [UInt8.ofNat n]

/-- The number that some bytes in memory are, most significant first. -/
def readBE (mem : Memory) : Nat → Nat → Nat
  | 0, _ => 0
  | width + 1, addr => readBE mem width addr * 256 + (mem (addr + width)).toNat

/-- A number has as many bytes as it is given. -/
@[simp] theorem length_bytesBE (width n : Nat) : (bytesBE width n).length = width := by
  induction width generalizing n with
  | zero => rfl
  | succ width ih => simp [bytesBE, ih]

/-- Reading the bytes of a number returns what of it fits in them. -/
theorem readBE_bytesBE {width n : Nat} (holds : Holds mem addr (bytesBE width n)) :
    readBE mem width addr = n % 256 ^ width := by
  induction width generalizing n with
  | zero => simp [readBE, Nat.mod_one]
  | succ width ih =>
    rw [bytesBE, holds_append, length_bytesBE] at holds
    obtain ⟨front, last, -⟩ := holds
    have digit : (UInt8.ofNat n).toNat = n % 256 := by simp
    have digits : n % (256 * 256 ^ width) = n % 256 + 256 * (n / 256 % 256 ^ width) := Nat.mod_mul
    rw [readBE, ih front, last, digit, Nat.pow_succ, Nat.mul_comm (256 ^ width), digits]
    omega

/-- The bytes of a text. -/
def ascii (text : String) : List UInt8 := text.toList.map fun c => UInt8.ofNat c.toNat

/-! ## Trees -/

/-- A property of a node. -/
structure Property where
  /-- Its name. -/
  name : List UInt8
  /-- Where the name stands in the strings block. -/
  nameOffset : Nat
  /-- Its value. -/
  value : List UInt8
  deriving DecidableEq

/-- What stands in a node behind its name. -/
inductive Body where
  /-- The end of the node. -/
  | done
  /-- A token without meaning. -/
  | nop (rest : Body)
  /-- A property. -/
  | prop (p : Property) (rest : Body)
  /-- A subnode. -/
  | node (name : List UInt8) (inner rest : Body)

/-- The cell sizes that a node gives for its subnodes. -/
structure Cells where
  /-- The words of an address. -/
  address : Nat
  /-- The words of a size. -/
  size : Nat
  deriving DecidableEq

/-- The cell sizes where a node gives none. -/
def Cells.standard : Cells := ⟨2, 1⟩

/-- The name of the property that gives the words of an address. -/
def addressCells : List UInt8 := ascii "#address-cells"

/-- The name of the property that gives the words of a size. -/
def sizeCells : List UInt8 := ascii "#size-cells"

/-- The number that some bytes are, most significant first. -/
def numberBE (bytes : List UInt8) : Nat := bytes.foldl (fun n b => n * 256 + b.toNat) 0

/-- Bytes in memory are read as the number they are. -/
theorem Holds.readBE_eq (holds : Holds mem addr xs) : readBE mem xs.length addr = numberBE xs := by
  induction xs using List.reverseRecOn with
  | nil => rfl
  | append_singleton xs b ih =>
    obtain ⟨front, last, -⟩ := holds_append.mp holds
    unfold numberBE at ih ⊢
    rw [List.length_append, List.length_singleton, readBE, ih front, last, List.foldl_append]
    rfl

/-- The number of bytes one after the other. -/
theorem numberBE_append (xs ys : List UInt8) :
    numberBE (xs ++ ys) = numberBE xs * 256 ^ ys.length + numberBE ys := by
  induction ys using List.reverseRecOn with
  | nil => simp [numberBE]
  | append_singleton ys b ih =>
    unfold numberBE at ih ⊢
    rw [← List.append_assoc, List.foldl_append, ih, List.foldl_append, List.length_append,
      List.length_singleton, Nat.pow_succ]
    simp only [List.foldl_cons, List.foldl_nil, Nat.add_mul, Nat.mul_assoc, Nat.add_assoc]

/-- The number of some bytes fits in them. -/
theorem numberBE_lt (xs : List UInt8) : numberBE xs < 256 ^ xs.length := by
  induction xs using List.reverseRecOn with
  | nil => simp [numberBE]
  | append_singleton xs b ih =>
    have digit : numberBE [b] < 256 := by simpa [numberBE] using b.toNat_lt
    rw [numberBE_append, List.length_append, List.length_singleton, Nat.pow_one, Nat.pow_succ]
    omega

section Words

variable {m n : Nat} (fits : m + n ≤ xs.length)

include fits

/-- The number of the first bytes, cut in two. -/
theorem numberBE_take_add : numberBE (xs.take (m + n)) =
    numberBE (xs.take m) * 256 ^ n + numberBE ((xs.drop m).take n) := by
  have width : ((xs.drop m).take n).length = n := by
    rw [List.length_take, List.length_drop]
    omega
  rw [List.take_add, numberBE_append, width]

/-- More bytes give another number, unless all are zero. -/
theorem numberBE_take_grow (more : 0 < n)
    (same : numberBE (xs.take (m + n)) = numberBE (xs.take m)) :
    numberBE (xs.take m) = 0 ∧ numberBE ((xs.drop m).take n) = 0 := by
  rw [numberBE_take_add fits] at same
  have large : 2 ≤ 256 ^ n := Nat.le_trans (by decide) (Nat.pow_le_pow_right (by decide) more)
  have double : numberBE (xs.take m) * 2 ≤ numberBE (xs.take m) * 256 ^ n :=
    Nat.mul_le_mul_left _ large
  omega

end Words

/-- The number in the first word of a property. -/
def Property.cell (p : Property) : Nat := numberBE (p.value.take 4)

/-- The properties of a node. -/
def Body.props : Body → List Property
  | .done => []
  | .nop rest => rest.props
  | .prop p rest => p :: rest.props
  | .node _ _ rest => rest.props

/-- The number that the last property of a name gives. -/
def given (name : List UInt8) (ps : List Property) : Option Nat :=
  ((ps.filter fun p => p.name = name).getLast?).map Property.cell

/-- The cell sizes that a list of properties gives. -/
def cellsOf (ps : List Property) : Cells where
  address := (given addressCells ps).getD Cells.standard.address
  size := (given sizeCells ps).getD Cells.standard.size

/-- The cell sizes after one more property. -/
def Cells.read (c : Cells) (p : Property) : Cells :=
  if p.name = addressCells then { c with address := p.cell }
  else if p.name = sizeCells then { c with size := p.cell }
  else c

/-- The last property of a name decides. -/
theorem given_concat (name : List UInt8) (ps : List Property) (p : Property) :
    given name (ps ++ [p]) = if p.name = name then some p.cell else given name ps := by
  unfold given
  by_cases same : p.name = name
  · simp [same]
  · simp [same]

/-- Reading the properties one after the other gives the cell sizes of the list. -/
theorem foldl_read (c : Cells) (ps : List Property) :
    ps.foldl Cells.read c =
      ⟨(given addressCells ps).getD c.address, (given sizeCells ps).getD c.size⟩ := by
  induction ps using List.reverseRecOn with
  | nil => rfl
  | append_singleton ps p ih =>
    have different : sizeCells ≠ addressCells := by decide
    rw [List.foldl_append, ih, given_concat, given_concat, List.foldl_cons, List.foldl_nil]
    unfold Cells.read
    by_cases address : p.name = addressCells
    · simp [address, different.symm]
    · by_cases size : p.name = sizeCells
      · simp [size, different]
      · simp [address, size]

/-- The cell sizes of a list are what reading it from the standard ones gives. -/
theorem foldl_read_standard (ps : List Property) :
    ps.foldl Cells.read Cells.standard = cellsOf ps := foldl_read _ ps

/-! ## Bytes of a tree -/

/-- The pairs of an address and a size in a value: as many as there is room for. -/
def Cells.pairs (c : Cells) (value : List UInt8) : List (Nat × Nat) :=
  (List.range (value.length / (4 * (c.address + c.size)))).map fun i =>
    let pair := value.drop (i * (4 * (c.address + c.size)))
    (numberBE (pair.take (4 * c.address)), numberBE ((pair.drop (4 * c.address)).take (4 * c.size)))

/-- Zeros up to the next multiple of four. -/
def padding (n : Nat) : List UInt8 := List.replicate ((4 - n % 4) % 4) 0

/-- Bytes with their padding. -/
def padded (bytes : List UInt8) : List UInt8 := bytes ++ padding bytes.length

/-- The length of padded bytes. -/
theorem length_padded (bytes : List UInt8) :
    (padded bytes).length = bytes.length + (4 - bytes.length % 4) % 4 := by
  simp [padded, padding]

/-- The bytes of a property. -/
def Property.encode (p : Property) : List UInt8 :=
  bytesBE 4 3 ++ (bytesBE 4 p.value.length ++ (bytesBE 4 p.nameOffset ++ padded p.value))

/-- The length of the bytes of a property. -/
theorem Property.length_encode (p : Property) :
    p.encode.length = 12 + (padded p.value).length := by
  simp [Property.encode]
  omega

/-- The bytes of what stands in a node, without the token that ends it. -/
def Body.encode : Body → List UInt8
  | .done => []
  | .nop rest => bytesBE 4 4 ++ rest.encode
  | .prop p rest => p.encode ++ rest.encode
  | .node name inner rest =>
    bytesBE 4 1 ++ (padded (name ++ [0]) ++ (inner.encode ++ (bytesBE 4 2 ++ rest.encode)))

/-- A property in the document. -/
structure Occurrence where
  /-- The name of its node. -/
  owner : List UInt8
  /-- The cell sizes that the parent of its node gives. -/
  cells : Cells
  /-- The address of its token. -/
  entry : Nat
  /-- The property. -/
  property : Property

/-- The properties in the order of the document, from an address on: of the node `owner`, whose
parent gives `parent` and which gives `own` itself, and of the nodes below it. -/
def Body.occurrences (owner : List UInt8) (parent own : Cells) : Nat → Body → List Occurrence
  | _, .done => []
  | addr, .nop rest => rest.occurrences owner parent own (addr + 4)
  | addr, .prop p rest =>
    ⟨owner, parent, addr, p⟩ :: rest.occurrences owner parent own (addr + p.encode.length)
  | addr, .node name inner rest =>
    let start := addr + 4 + (padded (name ++ [0])).length
    inner.occurrences name own (cellsOf inner.props) start ++
      rest.occurrences owner parent own (start + inner.encode.length + 4)

/-- A property that can be written: a name without a zero byte, numbers that fit in a word, and a
word in the value where that is read as a number. -/
structure Property.WellFormed (p : Property) : Prop where
  /-- The name is a string. -/
  name : 0 ∉ p.name
  /-- The length fits in a word. -/
  length : p.value.length < 256 ^ 4
  /-- The offset fits in a word. -/
  offset : p.nameOffset < 256 ^ 4
  /-- A cell size is a word. -/
  cell : p.name = addressCells ∨ p.name = sizeCells → 4 ≤ p.value.length

instance (p : Property) : Decidable p.WellFormed :=
  decidable_of_iff
    (0 ∉ p.name ∧ p.value.length < 256 ^ 4 ∧ p.nameOffset < 256 ^ 4 ∧
      (p.name = addressCells ∨ p.name = sizeCells → 4 ≤ p.value.length))
    ⟨fun ⟨name, length, offset, cell⟩ => ⟨name, length, offset, cell⟩,
      fun wf => ⟨wf.name, wf.length, wf.offset, wf.cell⟩⟩

/-- The names are strings, and the properties of a node stand before its subnodes. -/
def Body.WellFormed : Body → Prop
  | .done => True
  | .nop rest => rest.WellFormed
  | .prop p rest => p.WellFormed ∧ rest.WellFormed
  | .node name inner rest => 0 ∉ name ∧ inner.WellFormed ∧ rest.props = [] ∧ rest.WellFormed

instance Body.decidableWellFormed : (b : Body) → Decidable b.WellFormed
  | .done => .isTrue trivial
  | .nop rest => rest.decidableWellFormed
  | .prop p rest =>
    have := rest.decidableWellFormed
    inferInstanceAs (Decidable (p.WellFormed ∧ rest.WellFormed))
  | .node name inner rest =>
    have := inner.decidableWellFormed
    have := rest.decidableWellFormed
    inferInstanceAs (Decidable (0 ∉ name ∧ inner.WellFormed ∧ rest.props = [] ∧ rest.WellFormed))

/-- How often a walk goes on at one level or goes down. -/
def Body.steps : Body → Nat
  | .done => 1
  | .nop rest => rest.steps + 1
  | .prop _ rest => rest.steps + 1
  | .node _ inner rest => max inner.steps rest.steps + 1

/-- Tokens without meaning before what stands in a node. -/
def Body.nops : Nat → Body → Body
  | 0, rest => rest
  | n + 1, rest => .nop (rest.nops n)

/-- A whole document: one node, with tokens without meaning around it. -/
structure DeviceTree where
  /-- The number of tokens before the node. -/
  before : Nat
  /-- The name of the node. -/
  name : List UInt8
  /-- What stands in it. -/
  body : Body
  /-- The number of tokens behind it. -/
  behind : Nat

/-- The document as the subnode of nothing. -/
def DeviceTree.top (tree : DeviceTree) : Body :=
  (Body.node tree.name tree.body (Body.done.nops tree.behind)).nops tree.before

/-- The bytes of the document, with the token that ends it. -/
def DeviceTree.encode (tree : DeviceTree) : List UInt8 := tree.top.encode ++ bytesBE 4 9

/-- The properties of the document that starts at an address. -/
def DeviceTree.occurrences (tree : DeviceTree) (addr : Nat) : List Occurrence :=
  tree.top.occurrences [] Cells.standard Cells.standard addr

/-- The name of the node is a string, and what stands in it can be written. -/
def DeviceTree.WellFormed (tree : DeviceTree) : Prop := 0 ∉ tree.name ∧ tree.body.WellFormed

instance (tree : DeviceTree) : Decidable tree.WellFormed :=
  inferInstanceAs (Decidable (0 ∉ tree.name ∧ tree.body.WellFormed))

/-- Tokens without meaning are no properties. -/
@[simp] theorem Body.props_nops (n : Nat) (b : Body) : (b.nops n).props = b.props := by
  induction n with
  | zero => rfl
  | succ n ih => exact ih

/-- Tokens without meaning can always be written. -/
@[simp] theorem Body.wellFormed_nops (n : Nat) (b : Body) :
    (b.nops n).WellFormed ↔ b.WellFormed := by
  induction n with
  | zero => rfl
  | succ n ih => exact ih

/-- Outside of its node the document has no properties. -/
@[simp] theorem DeviceTree.props_top (tree : DeviceTree) : tree.top.props = [] := by
  simp [DeviceTree.top, Body.props]

/-- The document can be written when its node can. -/
theorem DeviceTree.WellFormed.top {tree : DeviceTree} (wf : tree.WellFormed) :
    tree.top.WellFormed := by
  simp only [DeviceTree.top, Body.wellFormed_nops, Body.WellFormed, Body.props_nops]
  exact ⟨wf.1, wf.2, rfl, trivial⟩

/-! ## Properties in the document -/

section Occurrences

variable {owner : List UInt8} {parent own : Cells}

/-- The properties stand in memory where the document has them. -/
theorem Body.occurrences_holds {b : Body} (holds : Holds mem addr b.encode) :
    ∀ o ∈ b.occurrences owner parent own addr, Holds mem o.entry o.property.encode := by
  induction b generalizing addr owner parent own with
  | done => simp [Body.occurrences]
  | nop rest ih => exact ih (holds_append.mp holds).2
  | prop p rest ih =>
    obtain ⟨here, behind⟩ := holds_append.mp holds
    simp only [Body.occurrences, List.forall_mem_cons]
    exact ⟨here, ih behind⟩
  | node name inner rest ihInner ihRest =>
    simp only [Body.encode, holds_append, length_bytesBE] at holds
    obtain ⟨-, -, inside, -, behind⟩ := holds
    simp only [Body.occurrences, List.forall_mem_append]
    exact ⟨ihInner inside, ihRest behind⟩

/-- The properties of a tree that can be written can be written. -/
theorem Body.WellFormed.occurrences {b : Body} (wf : b.WellFormed) :
    ∀ o ∈ b.occurrences owner parent own addr, o.property.WellFormed := by
  induction b generalizing addr owner parent own with
  | done => simp [Body.occurrences]
  | nop rest ih => exact ih wf
  | prop p rest ih =>
    simp only [Body.occurrences, List.forall_mem_cons]
    exact ⟨wf.1, ih wf.2⟩
  | node name inner rest ihInner ihRest =>
    simp only [Body.occurrences, List.forall_mem_append]
    exact ⟨ihInner wf.2.1, ihRest wf.2.2.2⟩

/-- The properties start inside the bytes of the tree. -/
theorem Body.entry_bounds (b : Body) : ∀ o ∈ b.occurrences owner parent own addr,
    addr ≤ o.entry ∧ o.entry + o.property.encode.length ≤ addr + b.encode.length := by
  induction b generalizing addr owner parent own with
  | done => simp [Body.occurrences]
  | nop rest ih =>
    intro o inside
    have bounds := ih o inside
    simp only [Body.encode, List.length_append, length_bytesBE]
    omega
  | prop p rest ih =>
    intro o inside
    simp only [Body.encode, List.length_append]
    rcases List.mem_cons.mp inside with rfl | inside
    · exact ⟨Nat.le_refl _, by simp⟩
    · have bounds := ih o inside
      omega
  | node name inner rest ihInner ihRest =>
    intro o inside
    simp only [Body.encode, List.length_append, length_bytesBE]
    rcases List.mem_append.mp inside with inside | inside
    · have bounds := ihInner o inside
      omega
    · have bounds := ihRest o inside
      omega

/-- The properties stand in the order of their addresses, each once. -/
theorem Body.occurrences_ordered (b : Body) :
    (b.occurrences owner parent own addr).Pairwise (·.entry < ·.entry) := by
  induction b generalizing addr owner parent own with
  | done => exact List.Pairwise.nil
  | nop rest ih => exact ih
  | prop p rest ih =>
    refine List.pairwise_cons.mpr ⟨fun o inside => ?_, ih⟩
    have bounds := rest.entry_bounds o inside
    have long := p.length_encode
    show addr < o.entry
    omega
  | node name inner rest ihInner ihRest =>
    refine List.pairwise_append.mpr ⟨ihInner, ihRest, fun a inInner b inRest => ?_⟩
    have first := inner.entry_bounds a inInner
    have second := rest.entry_bounds b inRest
    omega

end Occurrences

end Library.FlatTree
