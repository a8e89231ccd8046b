import FelineOS.Kernel.MapAny
import FelineOS.Verif.PmmAreas
import FelineOS.Verif.VirtSearch
import FelineOS.Verif.MemManagers
import FelineOS.Verif.PagingArm

/-!
# Mapping with nothing specified never succeeds as promised

`map_range(len, &v, opts)` passes the pointer of the caller to `internal_map_range`, not the
address that is stored through it, and keeps the physical memory when the mapping fails. The page of
the pointer is mapped, so without `MAP_OVERWRITE` the mapping always fails; with it other pages are
mapped than those that were found. So the promise of the call is kept exactly when the call does not
come that far (`mapRangeManaged_promise_iff`).
-/

namespace FelineOS.PhysMem

open Library

variable {s s' : Pmm} {l l' : List Nat} {i n len : Nat} {mapRange : MapRange}

/-- What a request reserves was free and is not free any more. -/
theorem Rep.reserved_lost (rep : Rep s l) (member : i ∈ l) (free : (s.hdr i).inUse = false)
    (reserved : Reserved mapRange s l i n s' l') (positive : 0 < n) :
    FreeAt s.blocks (s.hdr i).memory ∧ ¬ FreeAt s'.blocks (s.hdr i).memory := by
  have enough := reserved.enough
  have smaller := reserved.within
  rw [rep.blocks_eq, reserved.rep.blocks_eq]
  constructor
  · refine ⟨_, List.mem_map_of_mem member, free, Nat.le_refl _, ?_⟩
    simp only [PhysMemHeader.block, Block.stop]
    omega
  · intro stillFree
    apply reserved.rep.layout.not_used_of_free stillFree
    refine ⟨_, List.mem_map_of_mem reserved.member, reserved.inUse, ?_⟩
    simp only [Block.Has, PhysMemHeader.block, Block.stop, reserved.memory]
    omega

/-- A request of a positive length that can be rounded is for some pages. -/
theorem roundUpToPage_pos (positive : 0 < len) (small : len ≤ roundLimit) : 0 < roundUpToPage len :=
  Nat.lt_of_lt_of_le positive (roundUpToPage_spec small).2.1

/-- A call of `get_mem_area(&addr, len)` that returned found no header, or found memory. -/
theorem Rep.getMemAreaAny_returned {result : PmmResult} {stored : Option Nat} (rep : Rep s l)
    (positive : 0 < len) (small : len ≤ roundLimit)
    (returned : s.getMemAreaAny mapRange len = .ok (result, stored, s')) :
    (result = .nomem ∧ s' = s ∧ ∀ i ∈ l, ¬ s.Fits len i) ∨
    (result = .success ∧ (∃ i ∈ l, s.Fits len i) ∧ ∃ phys, stored = some phys ∧
      phys < wordLimit ∧ pageSize ∣ phys ∧ FreeAt s.blocks phys ∧ ¬ FreeAt s'.blocks phys) := by
  rcases rep.getMemAreaAny_spec mapRange len with ⟨full, refused⟩ | ⟨i, member, fits, found⟩
  · rw [refused] at returned
    cases returned
    exact .inl ⟨rfl, rfl, full⟩
  · rcases found with ⟨s₁, l', reserved, succeeded⟩ | ⟨-, -, stop | stop⟩
    · rw [succeeded] at returned
      cases returned
      have lost := rep.reserved_lost member fits.1 reserved (roundUpToPage_pos positive small)
      exact .inr ⟨rfl, ⟨i, member, fits⟩, _, rfl, rep.memory_word member,
        (rep.header_bounds member).1, lost⟩
    · rw [stop] at returned
      cases returned
    · rw [stop] at returned
      cases returned

/-- The lookup of `get_mem_area(addr, len)` stops at a free header that is long enough. -/
def Pmm.FitsAt (s : Pmm) (addr len : Nat) : Prop :=
  ∃ i, s.reached s.chain addr = some i ∧ (s.hdr i).inUse = false ∧ len ≤ (s.hdr i).size

/-- A call of `get_mem_area(addr, len)` that returned was refused by its lookup, or found memory. -/
theorem Rep.getMemAreaAt_returned {addr : Nat} {result : PmmResult} (rep : Rep s l)
    (positive : 0 < len) (small : len ≤ roundLimit)
    (returned : s.getMemAreaAt mapRange addr len = .ok (result, s')) :
    (result = .nomem ∧ s' = s ∧ ¬ s.FitsAt addr len) ∨
    (result = .success ∧ s.FitsAt addr len ∧
      ∃ lost, FreeAt s.blocks lost ∧ ¬ FreeAt s'.blocks lost) := by
  rcases rep.getMemAreaAt_spec mapRange addr len with
    ⟨short, refused⟩ | ⟨i, found, free, fits, outcome⟩
  · rw [refused] at returned
    cases returned
    refine .inl ⟨rfl, rfl, ?_⟩
    rintro ⟨i, found, free, fits⟩
    rw [rep.chain_eq] at found
    exact absurd fits (Nat.not_le.mpr (short i found free))
  · have member := (rep.reached_spec found).1
    rw [← rep.chain_eq] at found
    rcases outcome with ⟨s₁, l', reserved, succeeded⟩ | ⟨-, -, stop | stop⟩
    · rw [succeeded] at returned
      cases returned
      have lost := rep.reserved_lost member free reserved (roundUpToPage_pos positive small)
      exact .inr ⟨rfl, ⟨i, found, free, fits⟩, _, lost⟩
    · rw [stop] at returned
      cases returned
    · rw [stop] at returned
      cases returned

end FelineOS.PhysMem

namespace FelineOS.Paging

open Library PhysMem

variable {τ : Type} {mmu : Mmu τ} {limit : Nat} {good : τ → Prop} {view : τ → Nat → Option Nat}
  {s s₀ s' : Space τ} {base count phys virt bound len i : Nat} {opts : MapOpts}
  {result : MapResults}

/-! ## What a mapping leaves -/

/-- Pages that are in use stay so while the physical memory manager maps its headers. -/
theorem Space.Grows.inUse (models : mmu.Models limit good view) (agrees : s₀.Agrees limit good view)
    (grows : s₀.Grows mmu s) (inUse : s₀.searchable i = true) : s.searchable i = true := by
  induction grows with
  | refl => exact inUse
  | map before physWord lenWord returns stillInUse =>
    have agreesHere := (before.kept models agrees).agrees
    rcases mapRange_cases models agreesHere rfl physWord returns with
      ⟨-, same⟩ | ⟨-, base, -, -, mapped⟩
    · rw [same.searchable]
      exact stillInUse
    · rw [mapped.searchable]
      unfold overlay
      split
      · rfl
      · exact stillInUse

/-- The loop over the pages does not succeed when its first page is taken. -/
theorem mapPages_taken (keeps : opts.overwrite = false) (taken : s.isMapped virt = true)
    (maps : Space.mapPages mmu bound opts (count + 1) s virt phys = .ok (result, s')) :
    result ≠ .success := by
  rw [Space.mapPages] at maps
  unfold Space.mapPage at maps
  rw [keeps, taken] at maps
  simp only [Bool.not_false, Bool.and_self, if_true, ok_bind, reduceCtorEq, if_false] at maps
  obtain ⟨undone, -, last⟩ := of_bind_ok maps
  cases last
  decide

/-- The loop with `MAP_OVERWRITE` leaves the pages outside its range. -/
theorem mapPages_overwrite_outside (models : mmu.Models limit good view) (well : good s.tables)
    (overwrites : opts.overwrite = true) (inside : base < pageCount) (physWord : phys < wordLimit)
    (maps : Space.mapPages mmu bound opts count s (base * pageSize) phys = .ok (result, s'))
    (outside : i < base ∨ base + count ≤ i) : view s'.tables i = view s.tables i := by
  have limitLt := models.limit_lt
  induction count generalizing s base phys with
  | zero =>
    rw [Space.mapPages] at maps
    cases maps
    rfl
  | succ count ih =>
    rw [Space.mapPages] at maps
    unfold Space.mapPage at maps
    rw [overwrites] at maps
    simp only [Bool.not_true, Bool.false_and, Bool.false_eq_true, if_false] at maps
    by_cases below : base < limit
    · obtain ⟨t', sets, well', shows⟩ : ∃ t',
          mmu.setEntry s.tables phys (base * pageSize) opts = .ok t' ∧ good t' ∧
            view t' = Function.update (view s.tables) (base * pageSize / pageSize)
              (some (phys / pageSize)) :=
        models.set_ok well physWord (by rw [page_div]; exact below)
      simp only [sets, ok_bind, if_true] at maps
      rw [pageIncr_page (by omega)] at maps
      have rest := ih well' (by omega) (pageIncr_lt physWord) maps (by omega)
      rw [rest]
      unfold Space.mark
      rw [shows, page_div]
      exact Function.update_of_ne (by omega) _ _
    · obtain ⟨fault, fails⟩ : ∃ fault, mmu.setEntry s.tables phys (base * pageSize) opts =
          .error fault :=
        models.set_beyond well (by rw [page_div]; omega) (page_lt inside)
      rw [fails] at maps
      cases maps

/-- A call of `internal_map_range` that succeeded has run its loop. -/
theorem internalMapRange_success
    (maps : s.internalMapRange mmu phys len virt opts = .ok (.success, s')) :
    pageOffset phys = pageOffset virt ∧
      Space.mapPages mmu virt opts (bytesToPages len) s (pageFloor virt) (pageFloor phys) =
        .ok (.success, s') := by
  unfold Space.internalMapRange at maps
  by_cases aligned : pageOffset phys = pageOffset virt
  · rw [if_neg (not_not.mpr aligned)] at maps
    cases overwrites : opts.overwrite with
    | true =>
      rw [overwrites] at maps
      exact ⟨aligned, maps⟩
    | false =>
      rw [overwrites] at maps
      obtain ⟨⟨free, next⟩, -, continues⟩ := of_bind_ok maps
      cases free with
      | true => exact ⟨aligned, continues⟩
      | false => cases continues
  · rw [if_pos aligned] at maps
    cases maps

/-- Without `MAP_OVERWRITE` no bytes are mapped from a mapped page on. -/
theorem internalMapRange_taken (keeps : opts.overwrite = false) (some : 0 < bytesToPages len)
    (taken : s.isMapped virt = true)
    (maps : s.internalMapRange mmu phys len virt opts = .ok (result, s')) : result ≠ .success := by
  rintro rfl
  have loop := (internalMapRange_success maps).2
  have first : s.isMapped (pageFloor virt) = true := by
    unfold Space.isMapped pageFloor
    rw [page_div]
    exact taken
  obtain ⟨n, more⟩ : ∃ n, bytesToPages len = n + 1 := ⟨bytesToPages len - 1, by omega⟩
  rw [more] at loop
  exact mapPages_taken keeps first loop rfl

/-- With `MAP_OVERWRITE` the last of as many free pages stays unmapped when the pages from a mapped
one on are mapped. -/
theorem internalMapRange_overwrite_last (models : mmu.Models limit good view)
    (agrees : s.Agrees limit good view) (overwrites : opts.overwrite = true) {page last : Nat}
    (count : bytesToPages len = last + 1) (free : s.FreePages page (page + (last + 1)))
    (below : page + last < limit) (physWord : phys < wordLimit) (virtWord : virt < wordLimit)
    (taken : s.isMapped virt = true)
    (maps : s.internalMapRange mmu phys len virt opts = .ok (.success, s')) :
    view s'.tables (page + last) = none := by
  have loop := (internalMapRange_success maps).2
  rw [count] at loop
  have outside : page + last < virt / pageSize ∨ virt / pageSize + (last + 1) ≤ page + last := by
    by_contra inside
    have unmapped := free (virt / pageSize) (by omega) (by omega)
    have mapped : s.searchable (virt / pageSize) = true := taken
    rw [unmapped] at mapped
    cases mapped
  have inside : virt / pageSize < pageCount := by
    unfold wordLimit at virtWord
    unfold pageCount maxVirtMem pageSize
    omega
  have kept := mapPages_overwrite_outside models agrees.good overwrites inside
    (Nat.lt_of_le_of_lt (pageFloor_le phys) physWord) loop outside
  have absent := agrees.agrees _ below
  rw [free _ (by omega) (by omega), ← kept] at absent
  exact Option.not_isSome_iff_eq_none.mp (by simp [← absent])

/-- The place that `find_free_virtmem` answers with: its pages are free where they end before the
address space. -/
theorem findFreeVirtmem_found {found : Nat} (word : len < wordLimit)
    (finds : s.findFreeVirtmem len = .ok (some found)) :
    ∃ page, found = page * pageSize ∧ len ≤ roundLimit ∧
      (page + pagesNeeded len < pageCount → s.FreePages page (page + pagesNeeded len)) := by
  obtain ⟨page, rfl, positive, inside, accepts⟩ := findFreeVirtmem_page finds
  have small : page + pagesNeeded len ≤ pageCount → len ≤ roundLimit := by
    intro fits
    unfold pagesNeeded at fits
    unfold pageCount maxVirtMem pageSize at *
    unfold roundLimit
    omega
  refine ⟨page, rfl, ?_⟩
  have scanned := freeFromHere_scanned (s := s) word (Nat.lt_of_succ_lt inside)
  rw [accepts] at scanned
  cases scanned with
  | unseen top whole => exact ⟨small (Nat.le_of_eq top), fun below => absurd below (by omega)⟩
  | free below free =>
    exact ⟨small (Nat.le_of_lt below), fun _ => free.mono (Nat.le_refl _) (Nat.le_succ _)⟩

/-! ## The promise -/

/-- What `map_range(len, &v, opts)` promises: after a success every page of the range that it
stored is mapped to a page that was free and is handed out; otherwise the same pages are mapped to
the same places and the same memory is free. -/
structure Promise (limit : Nat) (view : τ → Nat → Option Nat) (s s' : Managers τ)
    (result : MapResults) (virt len : Nat) : Prop where
  /-- The pages are mapped to fresh memory. -/
  mapped : result = .success → ∀ i < pagesNeeded len, ∃ q, virt / pageSize + i < limit ∧
    view s'.vmm.space.tables (virt / pageSize + i) = some q ∧
    ∀ x, q * pageSize ≤ x → x < (q + 1) * pageSize →
      FreeAt s.pmm.blocks x ∧ UsedAt s'.pmm.blocks x
  /-- A failed call leaves the set of mapped pages. -/
  samePages : result ≠ .success → s'.vmm.space.searchable = s.vmm.space.searchable ∧
    view s'.vmm.space.tables = view s.vmm.space.tables
  /-- A failed call leaves the free memory. -/
  sameMemory : result ≠ .success → ∀ x, FreeAt s'.pmm.blocks x ↔ FreeAt s.pmm.blocks x

/-- The pool of headers does not grow, or no page can be overwritten at the pointer. -/
def Managers.Settled (s : Managers τ) (caller : Nat) (opts : MapOpts) : Prop :=
  s.pmm.headersInUse + 1 < s.pmm.headersAllocated ∨ opts.overwrite = false ∨ pageOffset caller ≠ 0

section Calls

variable {m m' : Managers τ} {growth : Growth mmu m.vmm.space} {caller : Nat}

/-- A failed call that changed nothing keeps the promise. -/
theorem promise_of_unchanged (failed : result ≠ .success) (pmm : m'.pmm = m.pmm)
    (space : m'.vmm.space = m.vmm.space) : Promise limit view m m' result virt len := by
  refine ⟨fun success => absurd success failed, fun _ => ?_, fun _ x => ?_⟩
  · rw [space]
    exact ⟨rfl, rfl⟩
  · rw [pmm]

/-- The page of the pointer is in use when the physical memory manager has answered. -/
theorem grown_inUse (models : mmu.Models limit good view)
    (agrees : m.vmm.space.Agrees limit good view) (inUse : m.vmm.space.searchable i = true) :
    (m.grown growth).searchable i = true := by
  unfold Managers.grown
  split
  · exact inUse
  · exact growth.grows.inUse models agrees inUse

/-- Once memory was reserved the promise is broken: a failure keeps the memory, and a success maps
the pages from the pointer on in place of those that were found. -/
theorem not_promise_of_reserved (models : mmu.Models limit good view)
    (agrees : m.vmm.space.Agrees limit good view) (positive : 0 < len) (word : len < wordLimit)
    (callerWord : caller < wordLimit) (physWord : phys < wordLimit) (aligned : pageOffset phys = 0)
    (found : m.vmm.space.findFreeVirtmem len = .ok (some virt))
    (pointer : m.vmm.space.isMapped caller = true)
    (lost : ∃ x, FreeAt m.pmm.blocks x ∧ ¬ FreeAt m'.pmm.blocks x)
    (maps : (m.grown growth).internalMapRange mmu phys len caller opts = .ok (result, m'.vmm.space))
    (settled : m.Settled caller opts) : ¬ Promise limit view m m' result virt len := by
  intro promise
  obtain ⟨page, rfl, small, free⟩ := findFreeVirtmem_found word found
  have count : bytesToPages len = pagesNeeded len := bytesToPages_eq small
  have some : 0 < pagesNeeded len := by
    unfold pagesNeeded pageSize
    omega
  by_cases success : result = .success
  · subst success
    cases overwrites : opts.overwrite with
    | false =>
      -- The first page is that of the pointer.
      have taken : (m.grown growth).isMapped caller = true := grown_inUse models agrees pointer
      rw [← count] at some
      exact internalMapRange_taken overwrites some taken maps rfl
    | true =>
      have same : m.grown growth = m.vmm.space := by
        rcases settled with spare | keeps | unaligned
        · exact if_pos spare
        · rw [overwrites] at keeps
          cases keeps
        · exact absurd ((internalMapRange_success maps).1.symm.trans aligned) unaligned
      rw [same] at maps
      obtain ⟨last, pages⟩ : ∃ last, pagesNeeded len = last + 1 := ⟨pagesNeeded len - 1, by omega⟩
      -- The last of the pages that were found is not one of those that are mapped.
      obtain ⟨q, below, shows, -⟩ := promise.mapped rfl last (by omega)
      rw [page_div] at below shows
      have limitLt := models.limit_lt
      rw [pages] at free count
      have unmapped := internalMapRange_overwrite_last models agrees overwrites count
        (free (by omega)) below physWord callerWord pointer maps
      rw [unmapped] at shows
      cases shows
  · obtain ⟨x, wasFree, notFree⟩ := lost
    exact notFree ((promise.sameMemory success x).mpr wasFree)

/-- Releasing the lock leaves the mapping state. -/
theorem Vmm.releaseLock_space (vmm : Vmm τ) : vmm.releaseLock.space = vmm.space := rfl

/-- The course of a call that returned. -/
inductive Course (m : Managers τ) (growth : Growth mmu m.vmm.space)
    (gets : Except Fault (PmmResult × Nat × Pmm)) (len caller : Nat) (opts : MapOpts)
    (result : MapResults) (virt : Nat) (m' : Managers τ) : Prop where
  /-- There is no virtual memory. -/
  | noVirtmem (search : m.vmm.space.findFreeVirtmem len = .ok none) (failed : result ≠ .success)
      (pmm : m'.pmm = m.pmm) (space : m'.vmm.space = m.vmm.space)
  /-- There is no physical memory. -/
  | noPhysmem (search : m.vmm.space.findFreeVirtmem len = .ok (some virt)) (phys : Nat)
      (got : gets = .ok (.nomem, phys, m'.pmm)) (failed : result ≠ .success)
      (space : m'.vmm.space = m.vmm.space)
  /-- The memory is mapped. -/
  | reserved (search : m.vmm.space.findFreeVirtmem len = .ok (some virt)) (attempt : PmmResult)
      (phys : Nat) (got : gets = .ok (attempt, phys, m'.pmm)) (found : attempt ≠ .nomem)
      (maps : (m.grown growth).internalMapRange mmu phys len caller opts =
        .ok (result, m'.vmm.space))

/-- A call that returned stored through its pointer and took one of the courses. -/
theorem mapRangeWith_course {noVirtmem : Vmm τ → Vmm τ}
    {gets : Except Fault (PmmResult × Nat × Pmm)}
    (lockOnly : ∀ vmm, (noVirtmem vmm).space = vmm.space)
    (returns : m.mapRangeWith mmu growth noVirtmem gets len caller opts =
      .ok (result, virt, m')) :
    m.vmm.space.isMapped caller = true ∧ Course m growth gets len caller opts result virt m' := by
  have same : m.vmm.acquireLock.space = m.vmm.space := rfl
  unfold Managers.mapRangeWith at returns
  simp only [same] at returns
  obtain ⟨found, search, returns⟩ := of_bind_ok returns
  cases pointer : m.vmm.space.isMapped caller with
  | false =>
    rw [pointer] at returns
    cases returns
  | true =>
    rw [pointer] at returns
    refine ⟨rfl, ?_⟩
    cases found with
    | none =>
      cases returns
      exact .noVirtmem search (by decide) rfl (lockOnly _)
    | some base =>
      obtain ⟨⟨attempt, phys, pmm⟩, got, returns⟩ := of_bind_ok returns
      by_cases out : attempt = .nomem
      · simp only [if_pos out] at returns
        cases returns
        subst out
        exact .noPhysmem search phys got (by decide) rfl
      · simp only [if_neg out] at returns
        obtain ⟨⟨outcome, space⟩, maps, last⟩ := of_bind_ok returns
        cases last
        exact .reserved search attempt phys got out maps

/-- An answer of `get_mem_area`: nothing fits, or something that was free is not free any more. -/
def Answered (m : Managers τ) (fits : Prop) (attempt : PmmResult) (phys : Nat) (pmm : Pmm) : Prop :=
  (attempt = .nomem ∧ pmm = m.pmm ∧ ¬ fits) ∨
  (attempt = .success ∧ fits ∧ phys < wordLimit ∧ pageOffset phys = 0 ∧
    ∃ x, FreeAt m.pmm.blocks x ∧ ¬ FreeAt pmm.blocks x)

/-- The promise is kept by the calls that do not come to the mapping, and only by them. -/
theorem Course.promise_iff {gets : Except Fault (PmmResult × Nat × Pmm)} {fits : Prop}
    (course : Course m growth gets len caller opts result virt m')
    (models : mmu.Models limit good view) (agrees : m.vmm.space.Agrees limit good view)
    (positive : 0 < len) (word : len < wordLimit) (callerWord : caller < wordLimit)
    (pointer : m.vmm.space.isMapped caller = true)
    (answered : len ≤ roundLimit → ∀ attempt phys pmm, gets = .ok (attempt, phys, pmm) →
      Answered m fits attempt phys pmm) :
    (m.vmm.space.findFreeVirtmem len = .ok none ∨ ¬ fits → Promise limit view m m' result virt len) ∧
    (m.Settled caller opts → (Promise limit view m m' result virt len ↔
      m.vmm.space.findFreeVirtmem len = .ok none ∨ ¬ fits)) := by
  cases course with
  | noVirtmem search failed pmm space =>
    have promise : Promise limit view m m' result virt len := promise_of_unchanged failed pmm space
    exact ⟨fun _ => promise, fun _ => iff_of_true promise (.inl search)⟩
  | noPhysmem search phys got failed space =>
    obtain ⟨page, rfl, small, -⟩ := findFreeVirtmem_found word search
    rcases answered small _ _ _ got with ⟨-, pmm, misses⟩ | ⟨success, -⟩
    · have promise : Promise limit view m m' result (page * pageSize) len :=
        promise_of_unchanged failed pmm space
      exact ⟨fun _ => promise, fun _ => iff_of_true promise (.inr misses)⟩
    · cases success
  | reserved search attempt phys got found maps =>
    obtain ⟨page, rfl, small, -⟩ := findFreeVirtmem_found word search
    rcases answered small _ _ _ got with ⟨nomem, -⟩ | ⟨-, fitting, physWord, aligned, lost⟩
    · exact absurd nomem found
    · have comes : ¬ (m.vmm.space.findFreeVirtmem len = .ok none ∨ ¬ fits) := by
        rintro (none | misses)
        · rw [search] at none
          cases none
        · exact misses fitting
      refine ⟨fun stops => absurd stops comes, fun settled => iff_of_false ?_ comes⟩
      exact not_promise_of_reserved models agrees positive word callerWord physWord aligned search
        pointer lost maps settled

end Calls

/-! ## The two architectures -/

section Architectures

variable {caller : Nat}

/-- On i386 the call does not come to the mapping: no virtual memory is found, or no free header is
long enough. -/
def I386.Exhausted (m : Managers I386.Tables) (len : Nat) : Prop :=
  m.vmm.space.findFreeVirtmem len = .ok none ∨ ¬ ∃ i ∈ m.pmm.chain, m.pmm.Fits len i

/-- On ARM the call does not come to the mapping: no virtual memory is found, or the first header
that reaches the null address is in use or too short, or there is none. -/
def Arm.Exhausted (m : Managers Arm.Tables) (len : Nat) : Prop :=
  m.vmm.space.findFreeVirtmem len = .ok none ∨ ¬ m.pmm.FitsAt 0 len

/-- On both architectures, with any well-formed states of the two managers, `map_range(len, &v,
opts)` keeps its promise when virtual or physical memory is short. Where the pool of headers does
not grow during the call, and in any case without `MAP_OVERWRITE` or with a pointer that is not the
start of a page, it keeps it only then. -/
theorem mapRangeManaged_promise_iff (len caller virt : Nat) (opts : MapOpts) (result : MapResults)
    (positive : 0 < len) (word : len < wordLimit) (callerWord : caller < wordLimit) :
    (∀ layout (m m' : Managers I386.Tables) (growth : Growth (I386.mmu layout) m.vmm.space),
      Represented m.pmm → I386.Sound layout m.vmm.space →
      I386.mapRangeManaged layout m growth len caller opts = .ok (result, virt, m') →
      (I386.Exhausted m len → Promise I386.windowPage I386.view m m' result virt len) ∧
      (m.Settled caller opts →
        (Promise I386.windowPage I386.view m m' result virt len ↔ I386.Exhausted m len))) ∧
    ∀ layout (m m' : Managers Arm.Tables) (growth : Growth (Arm.mmu layout) m.vmm.space),
      Represented m.pmm → Arm.Sound layout m.vmm.space →
      Arm.mapRangeManaged layout m growth len caller opts = .ok (result, virt, m') →
      (Arm.Exhausted m len → Promise Arm.tableEnd Arm.view m m' result virt len) ∧
      (m.Settled caller opts →
        (Promise Arm.tableEnd Arm.view m m' result virt len ↔ Arm.Exhausted m len)) := by
  constructor
  · intro layout m m' growth represented sound returns
    obtain ⟨pointer, course⟩ := mapRangeWith_course Vmm.releaseLock_space returns
    refine course.promise_iff (I386.mmu_models layout) sound.agrees positive word callerWord pointer ?_
    intro small attempt phys pmm got
    obtain ⟨⟨answer, stored, after⟩, gets, last⟩ := of_bind_ok got
    cases last
    rcases represented.rep.getMemAreaAny_returned positive small gets with
      ⟨nomem, unchanged, full⟩ | ⟨success, fits, place, rfl, physWord, aligned, lost⟩
    · refine .inl ⟨nomem, unchanged, ?_⟩
      rintro ⟨i, member, fits⟩
      exact full i member fits
    · exact .inr ⟨success, fits, physWord, Nat.mod_eq_zero_of_dvd aligned, _, lost⟩
  · intro layout m m' growth represented sound returns
    obtain ⟨pointer, course⟩ := mapRangeWith_course (fun _ => rfl) returns
    refine course.promise_iff (Arm.mmu_models layout) sound.agrees positive word callerWord pointer ?_
    intro small attempt phys pmm got
    obtain ⟨⟨answer, after⟩, gets, last⟩ := of_bind_ok got
    cases last
    rcases represented.rep.getMemAreaAt_returned positive small gets with
      ⟨nomem, unchanged, short⟩ | ⟨success, fits, lost⟩
    · exact .inl ⟨nomem, unchanged, short⟩
    · exact .inr ⟨success, fits, by decide, by decide, lost⟩

/-! ## The calls among the others -/

/-- The physical memory manager as `mapRangeAny` asks it. -/
def Managers.pmmCalls (m : Managers τ) (growth : Growth mmu m.vmm.space) : PmmCalls τ where
  getMemArea _ len := do
    let (attempt, phys, _) ← m.pmm.getMemAreaAny growth.answer len
    .ok (attempt, phys.getD 0, if attempt = .nomem then m.vmm.space else m.grown growth)
  getMemAreaAt _ addr len := do
    let (attempt, _) ← m.pmm.getMemAreaAt growth.answer addr len
    .ok (attempt, if attempt = .nomem then m.vmm.space else m.grown growth)
  freeMemArea _ phys len := do
    let (attempt, _) ← m.pmm.freeMemArea phys len
    .ok attempt

/-- The mapping state grows by the calls of `map_range` for the headers, if at all. -/
theorem Managers.grows_answered (m : Managers τ) (growth : Growth mmu m.vmm.space)
    (attempt : PmmResult) :
    m.vmm.space.Grows mmu (if attempt = .nomem then m.vmm.space else m.grown growth) := by
  unfold Managers.grown
  split
  · exact .refl
  · split
    · exact .refl
    · exact growth.grows

/-- On i386 the virtual manager sees the call that `mapRangeAny` describes. -/
theorem I386.mapRangeAny_of_managed {layout : I386.Layout} {m m' : Managers I386.Tables}
    {growth : Growth (I386.mmu layout) m.vmm.space}
    (returns : I386.mapRangeManaged layout m growth len caller opts = .ok (result, virt, m')) :
    I386.mapRangeAny layout (m.pmmCalls growth) m.vmm len caller opts = .ok (result, m'.vmm) := by
  have same : m.vmm.acquireLock.space = m.vmm.space := rfl
  unfold I386.mapRangeManaged Managers.mapRangeWith at returns
  unfold I386.mapRangeAny
  simp only [same] at returns ⊢
  obtain ⟨found, search, returns⟩ := of_bind_ok returns
  rw [search, ok_bind]
  cases pointer : m.vmm.space.isMapped caller with
  | false =>
    rw [pointer] at returns
    cases returns
  | true =>
    rw [pointer] at returns
    cases found with
    | none =>
      cases returns
      rfl
    | some base =>
      obtain ⟨⟨attempt, phys, pmm⟩, got, returns⟩ := of_bind_ok returns
      obtain ⟨⟨answer, stored, after⟩, gets, last⟩ := of_bind_ok got
      cases last
      unfold Managers.pmmCalls
      simp only [gets, ok_bind]
      by_cases out : answer = .nomem
      · simp only [if_pos out] at returns ⊢
        cases returns
        rfl
      · simp only [if_neg out] at returns ⊢
        obtain ⟨⟨outcome, space⟩, maps, last⟩ := of_bind_ok returns
        cases last
        rw [maps]
        rfl

/-- On ARM the virtual manager sees the call that `mapRangeAny` describes. -/
theorem Arm.mapRangeAny_of_managed {layout : Arm.Layout} {m m' : Managers Arm.Tables}
    {growth : Growth (Arm.mmu layout) m.vmm.space}
    (returns : Arm.mapRangeManaged layout m growth len caller opts = .ok (result, virt, m')) :
    Arm.mapRangeAny layout (m.pmmCalls growth) m.vmm len caller opts = .ok (result, m'.vmm) := by
  have same : m.vmm.acquireLock.space = m.vmm.space := rfl
  unfold Arm.mapRangeManaged Managers.mapRangeWith at returns
  unfold Arm.mapRangeAny
  simp only [same] at returns ⊢
  obtain ⟨found, search, returns⟩ := of_bind_ok returns
  rw [search, ok_bind]
  cases pointer : m.vmm.space.isMapped caller with
  | false =>
    rw [pointer] at returns
    cases returns
  | true =>
    rw [pointer] at returns
    cases found with
    | none =>
      cases returns
      rfl
    | some base =>
      obtain ⟨⟨attempt, phys, pmm⟩, got, returns⟩ := of_bind_ok returns
      obtain ⟨⟨answer, after⟩, gets, last⟩ := of_bind_ok got
      cases last
      unfold Managers.pmmCalls
      simp only [gets, ok_bind]
      by_cases out : answer = .nomem
      · simp only [if_pos out] at returns ⊢
        cases returns
        rfl
      · simp only [if_neg out] at returns ⊢
        obtain ⟨⟨outcome, space⟩, maps, last⟩ := of_bind_ok returns
        cases last
        rw [maps]
        rfl

/-- On i386 the call is a step of the page tables, so the two copies of the mapping state agree
after it as before. -/
theorem I386.reachable_managed {layout : I386.Layout} {m m' : Managers I386.Tables}
    {growth : Growth (I386.mmu layout) m.vmm.space} (reachable : I386.Reachable layout m.vmm)
    (represented : Represented m.pmm) (word : len < wordLimit) (callerWord : caller < wordLimit)
    (returns : I386.mapRangeManaged layout m growth len caller opts = .ok (result, virt, m')) :
    I386.Reachable layout m'.vmm := by
  apply reachable.step
  apply I386.Step.mapAny word callerWord _ (I386.mapRangeAny_of_managed returns)
  intro attempt phys space gets
  obtain ⟨⟨answer, stored, pmm⟩, asked, last⟩ := of_bind_ok gets
  cases last
  refine ⟨?_, m.grows_answered growth _⟩
  obtain ⟨l, rep⟩ := represented
  rcases rep.getMemAreaAny_spec growth.answer len with ⟨-, refused⟩ | ⟨i, member, -, found⟩
  · rw [refused] at asked
    cases asked
    decide
  · rcases found with ⟨s', l', -, succeeded⟩ | ⟨-, -, stop | stop⟩
    · rw [succeeded] at asked
      cases asked
      exact rep.memory_word member
    · rw [stop] at asked
      cases asked
    · rw [stop] at asked
      cases asked

/-- On ARM the call is a step of the page tables as well. -/
theorem Arm.reachable_managed {layout : Arm.Layout} {m m' : Managers Arm.Tables}
    {growth : Growth (Arm.mmu layout) m.vmm.space} (reachable : Arm.Reachable layout m.vmm)
    (word : len < wordLimit) (callerWord : caller < wordLimit)
    (returns : Arm.mapRangeManaged layout m growth len caller opts = .ok (result, virt, m')) :
    Arm.Reachable layout m'.vmm := by
  apply reachable.step
  apply Arm.Step.mapAny word callerWord _ (Arm.mapRangeAny_of_managed returns)
  intro attempt space gets
  obtain ⟨⟨answer, pmm⟩, asked, last⟩ := of_bind_ok gets
  cases last
  exact m.grows_answered growth _

/-- On i386 the two managers together grow as an argument of the call describes. -/
theorem I386.exists_growth {layout : I386.Layout} (s : Mem.System) (next : Option Nat)
    (represented : Represented s.pmm) (sound : I386.Sound layout s.vmm.space) :
    ∃ (growth : Growth (I386.mmu layout) s.vmm.space) (vmm : Vmm I386.Tables),
      vmm.space = Managers.grown ⟨s.pmm, s.vmm⟩ growth ∧
      s.getMemArea layout next len = (do
        let (attempt, stored, pmm) ← s.pmm.getMemAreaAny growth.answer len
        pure (attempt, stored, ⟨pmm, vmm⟩)) := by
  obtain ⟨l, rep⟩ := represented
  obtain ⟨mapRange, vmm, answers, sim⟩ := @Mem.getMemArea_sim layout next s l len rep sound
  have grows : s.vmm.space.Grows (I386.mmu layout) vmm.space := by
    rcases answers.chunkMapped with rfl | ⟨phys, outcome, found, physWord, maps⟩
    · exact .refl
    · exact .map .refl physWord (by decide) maps
  refine ⟨⟨mapRange, vmm.space, grows⟩, vmm, ?_, sim⟩
  unfold Managers.grown
  split
  · rename_i spare
    rcases answers with ⟨-, -, same⟩ | ⟨full, -⟩
    · rw [same]
    · exact absurd spare (Nat.not_lt.mpr full)
  · rfl

/-! ## After booting -/

/-- After booting on i386 the first page behind the null page is found, and a pointer in the kernel
is in a mapped page. -/
theorem I386.booted : ∃ v, I386.setupPaging I386.exampleLayout = .ok v ∧
    v.space.findFreeVirtmem 0x1000 = .ok (some 0x1000) ∧ v.space.isMapped 0xf0100004 = true := by
  obtain ⟨v, setup, marks⟩ := I386.setupPaging_returns I386.exampleLayout
  have kernel : I386.exampleLayout.kernelStart / pageSize = 0xf0100 := by decide
  have last : I386.exampleLayout.kernelEnd / pageSize = 0xf0700 := by decide
  refine ⟨v, setup, ?_, ?_⟩
  · refine findFreeVirtmem_first (by decide) (by decide) ?_
    intro i first second
    have one : bytesToPages 0x1000 = 1 := by decide
    rw [marks i (by unfold I386.windowPage; omega), decide_eq_false_iff_not, kernel]
    omega
  · unfold Space.isMapped
    rw [marks _ (by decide), decide_eq_true_iff, kernel, last]
    decide

/-- So it is on ARM. -/
theorem Arm.booted : ∃ v, Arm.setupPaging Arm.exampleLayout = .ok v ∧
    v.space.findFreeVirtmem 0x1000 = .ok (some 0x1000) ∧ v.space.isMapped 0xf0009004 = true := by
  obtain ⟨v, setup, marks⟩ := Arm.setupPaging_example
  refine ⟨v, setup, ?_, ?_⟩
  · refine findFreeVirtmem_first (by decide) (by decide) ?_
    intro i first second
    have one : bytesToPages 0x1000 = 1 := by decide
    rw [marks, overlay_outside (by omega)]
  · unfold Space.isMapped
    rw [marks]
    exact overlay_inside (by decide) (by decide)

/-- A pool that does not grow. -/
def idleGrowth (s : Space τ) : Growth mmu s := ⟨fun _ => .failed, s, .refl⟩

/-- A manager whose memory is all handed out. -/
def fullPmm : Pmm := Pmm.ofBlocks [⟨0x100000, 0x10000, true⟩]

/-- A manager with free memory. -/
def freePmm : Pmm := Pmm.ofBlocks [⟨0x100000, 0x10000, false⟩]

/-- With all physical memory handed out the calls keep the promise. -/
theorem mapRangeManaged_promise_iff_full :
    (∃ (m m' : Managers I386.Tables) (growth : Growth (I386.mmu I386.exampleLayout) m.vmm.space),
      I386.mapRangeManaged I386.exampleLayout m growth 0x1000 0xf0100004 MapOpts.none =
        .ok (.noPhysmem, 0x1000, m') ∧
      Promise I386.windowPage I386.view m m' .noPhysmem 0x1000 0x1000) ∧
    ∃ (m m' : Managers Arm.Tables) (growth : Growth (Arm.mmu Arm.exampleLayout) m.vmm.space),
      Arm.mapRangeManaged Arm.exampleLayout m growth 0x1000 0xf0009004 MapOpts.none =
        .ok (.noPhysmem, 0x1000, m') ∧
      Promise Arm.tableEnd Arm.view m m' .noPhysmem 0x1000 0x1000 := by
  have represented : Represented fullPmm := (repInv_ofBlocks (by decide) (by decide)).1
  constructor
  · obtain ⟨v, setup, search, pointer⟩ := I386.booted
    have refused : fullPmm.getMemAreaAny (fun _ => .failed) 0x1000 = .ok (.nomem, none, fullPmm) := by
      decide +kernel
    have returns : I386.mapRangeManaged I386.exampleLayout ⟨fullPmm, v⟩ (idleGrowth v.space) 0x1000
        0xf0100004 MapOpts.none = .ok (.noPhysmem, 0x1000, ⟨fullPmm, v.acquireLock.releaseLock⟩) := by
      have same : v.acquireLock.space = v.space := rfl
      unfold I386.mapRangeManaged Managers.mapRangeWith
      simp only [same, search, ok_bind, pointer, if_true, idleGrowth, refused]
    have exhausted : I386.Exhausted ⟨fullPmm, v⟩ 0x1000 := by
      refine .inr ?_
      rintro ⟨i, member, fits⟩
      have listed : ∀ i ∈ fullPmm.chain, ¬ (fullPmm.hdr i).inUse = false := by decide +kernel
      exact listed i member fits.1
    refine ⟨_, _, _, returns, ?_⟩
    exact ((mapRangeManaged_promise_iff 0x1000 0xf0100004 0x1000 _ _ (by decide) (by decide)
      (by decide)).1 _ _ _ _ represented (I386.setupPaging_sound setup) returns).1 exhausted
  · obtain ⟨v, setup, search, pointer⟩ := Arm.booted
    have refused : fullPmm.getMemAreaAt (fun _ => .failed) 0 0x1000 = .ok (.nomem, fullPmm) := by
      decide +kernel
    have returns : Arm.mapRangeManaged Arm.exampleLayout ⟨fullPmm, v⟩ (idleGrowth v.space) 0x1000
        0xf0009004 MapOpts.none = .ok (.noPhysmem, 0x1000, ⟨fullPmm, v.acquireLock.releaseLock⟩) := by
      have same : v.acquireLock.space = v.space := rfl
      unfold Arm.mapRangeManaged Managers.mapRangeWith
      simp only [same, search, ok_bind, pointer, if_true, idleGrowth, refused]
    have exhausted : Arm.Exhausted ⟨fullPmm, v⟩ 0x1000 := by
      refine .inr ?_
      rintro ⟨i, reached, -⟩
      have nothing : fullPmm.reached fullPmm.chain 0 = none := by decide +kernel
      rw [nothing] at reached
      cases reached
    refine ⟨_, _, _, returns, ?_⟩
    exact ((mapRangeManaged_promise_iff 0x1000 0xf0009004 0x1000 _ _ (by decide) (by decide)
      (by decide)).2 _ _ _ _ represented (Arm.setupPaging_sound setup) returns).1 exhausted

/-- With free memory and a pointer in the kernel the call fails and keeps the memory. -/
theorem mapRangeManaged_promise_broken :
    ∃ (m m' : Managers I386.Tables) (growth : Growth (I386.mmu I386.exampleLayout) m.vmm.space),
      I386.Reachable I386.exampleLayout m.vmm ∧ RepInv m.pmm ∧
      I386.mapRangeManaged I386.exampleLayout m growth 0x1000 0xf0100004 MapOpts.none =
        .ok (.invalidAlign, 0x1000, m') ∧
      ¬ Promise I386.windowPage I386.view m m' .invalidAlign 0x1000 0x1000 := by
  have inv : RepInv freePmm := repInv_ofBlocks (by decide) (by decide)
  obtain ⟨v, setup, search, pointer⟩ := I386.booted
  obtain ⟨pmm, gets⟩ : ∃ pmm, freePmm.getMemAreaAny (fun _ => .failed) 0x1000 =
      .ok (.success, some 0x100000, pmm) :=
    ⟨stateAfter freePmm (.getAny (fun _ => .failed) 0x1000), by decide +kernel⟩
  have returns : I386.mapRangeManaged I386.exampleLayout ⟨freePmm, v⟩ (idleGrowth v.space) 0x1000
      0xf0100004 MapOpts.none = .ok (.invalidAlign, 0x1000, ⟨pmm, v.acquireLock.releaseLock⟩) := by
    have same : v.acquireLock.space = v.space := rfl
    have spare : freePmm.headersInUse + 1 < freePmm.headersAllocated := by decide +kernel
    have unaligned : pageOffset ((some 0x100000).getD 0) ≠ pageOffset 0xf0100004 := by decide
    unfold I386.mapRangeManaged Managers.mapRangeWith
    simp only [same, search, ok_bind, pointer, if_true, idleGrowth, gets, reduceCtorEq, if_false]
    unfold Managers.grown Space.internalMapRange
    simp only [if_pos spare, if_pos unaligned, ok_bind]
    rfl
  refine ⟨_, _, _, .setup setup, inv, returns, fun promise => ?_⟩
  rcases inv.1.rep.getMemAreaAny_returned (by decide) (by decide) gets with
    ⟨nomem, -⟩ | ⟨-, -, place, -, -, -, wasFree, notFree⟩
  · cases nomem
  · have kept := promise.sameMemory (by decide) place
    exact notFree (kept.mpr wasFree)

end Architectures

end FelineOS.Paging
