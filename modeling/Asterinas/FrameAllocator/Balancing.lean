import Asterinas.FrameAllocator.BuddySet

/-!
# Balancing the pools (`pools/balancing.rs`)

After each operation the pool of the CPU gives frames to the global pool or takes some from it.  How
much is a share of the global size, which is not a multiple of the page size, so that the difference
to the local size may come out below a page.
-/

namespace Asterinas.FrameAllocator

/-- The subtraction underflows if the size is less than a page. -/
def lesserOrderOf (size : ℕ) : Option ℕ :=
  if size / pageSize = 0 then none else some (Nat.log2 (size / pageSize))

/-- The addresses of the parts, for an address that is aligned to the order. -/
def splitToOrder (addr order splitOrder : ℕ) : Option (List ℕ) :=
  if addr % sizeOfOrder order = 0 then
    some ((List.range (1 <<< (order - splitOrder))).map fun i => addr + sizeOfOrder splitOrder * i)
  else none

section

variable (numCpus globalSize : ℕ)

/-- The size that the pool of each CPU should have. -/
def cacheExpectedSize : ℕ := globalSize / numCpus / 2

/-- The size below which the pool of a CPU takes frames. -/
def cacheMinimalSize : ℕ := cacheExpectedSize numCpus globalSize / 8

/-- The size from which on the pool of a CPU gives frames. -/
def cacheMaximalSize : ℕ := cacheExpectedSize numCpus globalSize * 2

end

/-- The number of the orders of the global pool. -/
def maxBuddyOrder : ℕ := 32

/-- The number of the orders of the pool of a CPU. -/
def maxLocalBuddyOrder : ℕ := 18

/-- A chunk that is taken from one pool goes to the other, in parts if it is too large for it. -/
def moveChunk {m : ℕ} (b : BuddySet m) (addr order : ℕ) : Option (BuddySet m) :=
  if m ≤ order then do
    let addrs ← splitToOrder addr order (m - 1)
    addrs.foldlM (fun b addr => b.insertChunk addr (m - 1)) b
  else b.insertChunk addr order

/-- `balance_to`: a chunk of the order goes from `a` to `b`, or, if there is none, twice what a call
for the next smaller order moves. -/
def balanceTo {m n : ℕ} (a : BuddySet m) (b : BuddySet n) (order : ℕ) :
    Option (BuddySet m × BuddySet n) := do
  let (allocatedFromA, a) ← a.allocChunk order
  match allocatedFromA with
  | some addr => return (a, ← moveChunk b addr order)
  | none =>
    if order > 1 then
      let (a, b) ← balanceTo a b (order - 1)
      balanceTo a b (order - 1)
    else return (a, b)
termination_by order

/-- The way in which frames are moved. -/
inductive Direction
  | toGlobal
  | toLocal

/-- The size with which `balance` calls `lesser_order_of`, if it does. -/
def expectedMove (numCpus localSize globalSize : ℕ) : Option (Direction × ℕ) :=
  let expectedLocalSize := cacheExpectedSize numCpus globalSize
  if localSize ≥ cacheMaximalSize numCpus globalSize then
    if localSize = 0 then none else some (.toGlobal, localSize - expectedLocalSize)
  else if localSize < cacheMinimalSize numCpus globalSize then
    if globalSize = 0 then none else some (.toLocal, expectedLocalSize - localSize)
  else none

/-- Why `balance` panics: `lesser_order_of` underflows, or a pool meets a chunk that it must not. -/
inductive Panic
  | lesserOrderOf
  | chunk
deriving DecidableEq

/-- `balance`, for the pool of one of some CPUs. -/
def balance (numCpus : ℕ) (loc : BuddySet maxLocalBuddyOrder) (glob : BuddySet maxBuddyOrder) :
    Except Panic (BuddySet maxLocalBuddyOrder × BuddySet maxBuddyOrder) :=
  match expectedMove numCpus loc.totalSize glob.totalSize with
  | none => .ok (loc, glob)
  | some (dir, size) =>
    (lesserOrderOf size).elim (.error .lesserOrderOf) fun lesserOrder =>
      Option.elim (match dir with
        | .toGlobal => balanceTo loc glob lesserOrder
        | .toLocal => (balanceTo glob loc lesserOrder).map Prod.swap) (.error .chunk) .ok

/-! ## What is moved -/

namespace BuddySet

variable {m order addr : ℕ} {s s' : BuddySet m} {chunk chunk' : FreeChunk}

lemma splitDown_totalSize (n : ℕ) (h : splitDown order n s chunk = some (chunk', s')) :
    s'.totalSize = s.totalSize := by
  induction n generalizing s chunk with
  | zero =>
    cases h
    rfl
  | succ n ih =>
    obtain ⟨⟨left, right⟩, -, h⟩ := Option.bind_eq_some_iff.mp h
    obtain ⟨-, -, h⟩ := Option.bind_eq_some_iff.mp h
    exact (ih h).trans rfl

/-- A set loses the size of the chunk that is taken from it. -/
lemma allocChunk_totalSize {r : Option ℕ} (h : s.allocChunk order = some (r, s')) :
    s.totalSize = s'.totalSize + r.elim 0 fun _ => sizeOfOrder order := by
  unfold allocChunk at h
  split at h
  · cases h
    rfl
  · split at h
    · cases h
    · obtain ⟨-, -, h⟩ := Option.bind_eq_some_iff.mp h
      obtain ⟨⟨chunk, rest⟩, hsplit, h⟩ := Option.bind_eq_some_iff.mp h
      obtain ⟨_, hle, h⟩ := Option.bind_eq_some_iff.mp h
      cases h
      -- The total is reduced only after the chunk has been split off.
      have htotal : rest.totalSize = s.totalSize := (splitDown_totalSize _ hsplit).trans rfl
      have hle : sizeOfOrder order ≤ rest.totalSize := by
        by_contra hlt
        simp [guard, hlt] at hle
      simp only [Option.elim]
      omega

lemma coalesce_totalSize (n i : ℕ) (h : coalesce n i s chunk = some (chunk', s')) :
    s'.totalSize = s.totalSize := by
  induction n generalizing i s chunk with
  | zero =>
    cases h
    rfl
  | succ n ih =>
    unfold coalesce at h
    split_ifs at h
    · cases h
      rfl
    · split at h
      · cases h
        rfl
      · obtain ⟨merged, -, h⟩ := Option.bind_eq_some_iff.mp h
        exact (ih _ h).trans rfl

/-- A set gets the size of the chunk that is put into it. -/
lemma insertChunk_totalSize (h : s.insertChunk addr order = some s') :
    s'.totalSize = s.totalSize + sizeOfOrder order := by
  obtain ⟨-, -, h⟩ := Option.bind_eq_some_iff.mp h
  obtain ⟨chunk, -, h⟩ := Option.bind_eq_some_iff.mp h
  obtain ⟨⟨chunk', rest⟩, hrest, h⟩ := Option.bind_eq_some_iff.mp h
  cases h
  have htotal := coalesce_totalSize _ _ hrest
  simp only [pushFront, setList, htotal]

lemma foldlM_insertChunk_totalSize (addrs : List ℕ)
    (h : addrs.foldlM (fun s addr => s.insertChunk addr order) s = some s') :
    s'.totalSize = s.totalSize + addrs.length * sizeOfOrder order := by
  induction addrs generalizing s with
  | nil =>
    cases h
    simp
  | cons addr addrs ih =>
    obtain ⟨s₁, hinsert, h⟩ := Option.bind_eq_some_iff.mp h
    rw [ih h, insertChunk_totalSize hinsert, List.length_cons]
    ring

end BuddySet

lemma sizeOfOrder_succ (n : ℕ) : sizeOfOrder (n + 1) = 2 * sizeOfOrder n := by
  simp only [sizeOfOrder, Nat.one_shiftLeft, pow_succ]
  ring

/-- The parts of a chunk are as large as the chunk. -/
lemma moveChunk_totalSize {m addr order : ℕ} {b b' : BuddySet m}
    (h : moveChunk b addr order = some b') :
    b'.totalSize = b.totalSize + sizeOfOrder order := by
  unfold moveChunk at h
  split_ifs at h with hlarge
  · obtain ⟨addrs, haddrs, h⟩ := Option.bind_eq_some_iff.mp h
    unfold splitToOrder at haddrs
    split_ifs at haddrs
    cases haddrs
    rw [BuddySet.foldlM_insertChunk_totalSize _ h, List.length_map, List.length_range]
    simp only [sizeOfOrder, Nat.one_shiftLeft, ← mul_assoc, ← pow_add]
    rw [Nat.sub_add_cancel (by omega)]
  · exact BuddySet.insertChunk_totalSize h

/-- A call takes at most a chunk of its order away: if there is no such chunk, each of the two calls
below takes at most half of it.  What is taken away is what the other set gets. -/
lemma balanceTo_moves {m n : ℕ} {a a' : BuddySet m} {b b' : BuddySet n} (order : ℕ)
    (h : balanceTo a b order = some (a', b')) :
    a'.totalSize + b'.totalSize = a.totalSize + b.totalSize ∧
      b.totalSize ≤ b'.totalSize ∧ b'.totalSize ≤ b.totalSize + sizeOfOrder order := by
  induction order using Nat.strong_induction_on generalizing a b a' b' with
  | _ order ih =>
    unfold balanceTo at h
    obtain ⟨⟨r, a₁⟩, halloc, h⟩ := Option.bind_eq_some_iff.mp h
    have htotal := BuddySet.allocChunk_totalSize halloc
    cases r with
    | some addr =>
      obtain ⟨b₁, hmove, h⟩ := Option.bind_eq_some_iff.mp h
      cases h
      have hmoved := moveChunk_totalSize hmove
      simp only [Option.elim] at htotal
      omega
    | none =>
      simp only [Option.elim] at h htotal
      split_ifs at h with horder
      · obtain ⟨⟨a₂, b₂⟩, hfirst, h⟩ := Option.bind_eq_some_iff.mp h
        have h1 := ih (order - 1) (by omega) hfirst
        have h2 := ih (order - 1) (by omega) (a := a₂) (b := b₂) h
        have hsize := sizeOfOrder_succ (order - 1)
        rw [Nat.sub_add_cancel horder.le] at hsize
        omega
      · cases h
        omega

/-- The order of a size is that of a chunk which is not larger, unless the size is below a page. -/
lemma lesserOrderOf_cases (size : ℕ) :
    (size < pageSize ∧ lesserOrderOf size = none) ∨
      (pageSize ≤ size ∧ ∃ order, lesserOrderOf size = some order ∧ sizeOfOrder order ≤ size) := by
  have hpos : size / pageSize = 0 ↔ size < pageSize := Nat.div_eq_zero_iff_lt pageSize_pos
  unfold lesserOrderOf
  split_ifs with h
  · exact .inl ⟨hpos.mp h, rfl⟩
  · refine .inr ⟨not_lt.mp (h <| hpos.mpr ·), _, rfl, ?_⟩
    rw [sizeOfOrder, Nat.one_shiftLeft]
    exact (Nat.mul_le_mul_right _ (Nat.log2_self_le h)).trans (Nat.div_mul_le_self _ _)

section

variable (numCpus : ℕ) (loc : BuddySet maxLocalBuddyOrder) (glob : BuddySet maxBuddyOrder)

/-- The order underflows exactly if less than a page is to be moved. -/
lemma balance_eq_underflow_iff :
    balance numCpus loc glob = .error .lesserOrderOf ↔
      (expectedMove numCpus loc.totalSize glob.totalSize).any (·.2 < pageSize) := by
  unfold balance
  rcases expectedMove numCpus loc.totalSize glob.totalSize with _ | ⟨dir, size⟩
  · simp
  rcases lesserOrderOf_cases size with ⟨hlt, hnone⟩ | ⟨hle, order, hsome, -⟩
  · simp [hnone, hlt]
  · simp only [hsome, Option.elim]
    split <;> simp [hle]

variable {loc glob} {loc' : BuddySet maxLocalBuddyOrder} {glob' : BuddySet maxBuddyOrder}

/-- Frames go from one pool to the other, at most as many bytes as the pool of the CPU has too many
or lacks. -/
lemma balance_moved (h : balance numCpus loc glob = .ok (loc', glob')) :
    loc'.totalSize + glob'.totalSize = loc.totalSize + glob.totalSize ∧
      glob'.totalSize - glob.totalSize ≤
        loc.totalSize - cacheExpectedSize numCpus glob.totalSize ∧
      loc'.totalSize - loc.totalSize ≤
        cacheExpectedSize numCpus glob.totalSize - loc.totalSize := by
  unfold balance at h
  rcases hmove : expectedMove numCpus loc.totalSize glob.totalSize with _ | ⟨dir, size⟩ <;>
    rw [hmove] at h
  · cases h
    omega
  rcases lesserOrderOf_cases size with ⟨-, hnone⟩ | ⟨-, order, hsome, hle⟩
  · simp [hnone] at h
  simp only [hsome, Option.elim] at h
  split at h
  swap
  · cases h
  rename_i hto
  cases h
  unfold expectedMove at hmove
  cases dir with
  | toGlobal =>
    obtain rfl : loc.totalSize - cacheExpectedSize numCpus glob.totalSize = size := by
      split_ifs at hmove <;> simp_all
    have hmoves := balanceTo_moves order hto
    omega
  | toLocal =>
    obtain rfl : cacheExpectedSize numCpus glob.totalSize - loc.totalSize = size := by
      split_ifs at hmove <;> simp_all
    obtain ⟨⟨a, b⟩, hfrom, hswap⟩ := Option.map_eq_some_iff.mp hto
    obtain ⟨rfl, rfl⟩ := Prod.mk.inj hswap
    have hmoves := balanceTo_moves order hfrom
    simp only
    omega

end

/-- In every call of `balance` the order is one of at least a page, and the call and all calls of
`balance_to` move no more bytes than they are asked for and lose none; except that the order
underflows when the local pool has one page and at least its expected size, which is not more than
half a page, or has none and expects less than a page. -/
theorem balance_moves_iff (numCpus : ℕ) (loc : BuddySet maxLocalBuddyOrder)
    (glob : BuddySet maxBuddyOrder) (hpages : pageSize ∣ loc.totalSize) :
    (balance numCpus loc glob ≠ .error .lesserOrderOf ∧
      (∀ loc' glob', balance numCpus loc glob = .ok (loc', glob') →
        loc'.totalSize + glob'.totalSize = loc.totalSize + glob.totalSize ∧
        glob'.totalSize - glob.totalSize ≤
          loc.totalSize - cacheExpectedSize numCpus glob.totalSize ∧
        loc'.totalSize - loc.totalSize ≤
          cacheExpectedSize numCpus glob.totalSize - loc.totalSize) ∧
      ∀ m n (a a' : BuddySet m) (b b' : BuddySet n) order, balanceTo a b order = some (a', b') →
        a'.totalSize + b'.totalSize = a.totalSize + b.totalSize ∧
          b.totalSize ≤ b'.totalSize ∧ b'.totalSize ≤ b.totalSize + sizeOfOrder order) ↔
    ¬ (loc.totalSize = pageSize ∧ 0 < cacheExpectedSize numCpus glob.totalSize ∧
      cacheExpectedSize numCpus glob.totalSize ≤ pageSize / 2) ∧
    ¬ (loc.totalSize = 0 ∧ 8 ≤ cacheExpectedSize numCpus glob.totalSize ∧
      cacheExpectedSize numCpus glob.totalSize < pageSize) := by
  have hmoved : ∀ loc' glob', balance numCpus loc glob = .ok (loc', glob') → _ :=
    fun loc' glob' => balance_moved numCpus
  have hmoves : ∀ m n (a a' : BuddySet m) (b b' : BuddySet n) order,
      balanceTo a b order = some (a', b') → _ := fun m n a a' b b' => balanceTo_moves
  rw [and_iff_left ⟨hmoved, hmoves⟩, Ne, balance_eq_underflow_iff]
  obtain ⟨k, hk⟩ := hpages
  have hzero : glob.totalSize = 0 → cacheExpectedSize numCpus glob.totalSize = 0 := by
    intro h
    simp [cacheExpectedSize, h]
  -- Only arithmetic is left, on the pages of the local pool and the expected size.
  have hmax : cacheMaximalSize numCpus glob.totalSize =
    cacheExpectedSize numCpus glob.totalSize * 2 := rfl
  have hmin : cacheMinimalSize numCpus glob.totalSize =
    cacheExpectedSize numCpus glob.totalSize / 8 := rfl
  simp only [expectedMove, show pageSize = 4096 from rfl] at hk ⊢
  split_ifs <;> simp <;> omega

/-- One CPU shares 16 KiB: its empty pool expects two pages, and gets them as half of the only chunk
of the global pool. -/
theorem balance_moves_to_empty_pool :
    ∃ glob loc' glob', (BuddySet.newEmpty maxBuddyOrder).insertChunk 0 2 = some glob ∧
      balance 1 (.newEmpty _) glob = .ok (loc', glob') ∧
      loc'.totalSize = 2 * pageSize ∧ loc'.totalSize + glob'.totalSize = 4 * pageSize := by
  obtain ⟨glob, glob', loc', hglob, htotal, halloc, hmove, hloc⟩ :
      ∃ glob glob', ∃ loc' : BuddySet maxLocalBuddyOrder,
        (BuddySet.newEmpty maxBuddyOrder).insertChunk 0 2 = some glob ∧
        glob.totalSize = 4 * pageSize ∧ glob.allocChunk 1 = some (some 0, glob') ∧
        moveChunk (.newEmpty _) 0 1 = some loc' ∧ loc'.totalSize = 2 * pageSize :=
    ⟨_, _, _, rfl, rfl, rfl, rfl, rfl⟩
  have hto : balanceTo glob (.newEmpty maxLocalBuddyOrder) 1 = some (glob', loc') := by
    rw [balanceTo, halloc]
    exact congrArg (Option.map _) hmove
  have hok : balance 1 (.newEmpty _) glob = .ok (loc', glob') := by
    have hmove : expectedMove 1 (BuddySet.newEmpty maxLocalBuddyOrder).totalSize glob.totalSize =
        some (.toLocal, 8192) := by
      rw [htotal]
      rfl
    simp [balance, hmove, show lesserOrderOf 8192 = some 1 from rfl, hto]
  -- The pools are outside both exceptions: 8 KiB are expected.
  obtain ⟨-, hmoved, -⟩ := (balance_moves_iff 1 (.newEmpty _) glob (by decide)).mpr
    (by rw [htotal]; decide)
  refine ⟨glob, loc', glob', hglob, hok, hloc, ?_⟩
  rw [(hmoved loc' glob' hok).1, htotal]
  rfl

/-- The only CPU expects half of the last page of the global pool. -/
theorem balance_panics : ∃ glob, (BuddySet.newEmpty maxBuddyOrder).insertChunk 0 0 = some glob ∧
    glob.totalSize = pageSize ∧ balance 1 (.newEmpty _) glob = .error .lesserOrderOf := by
  obtain ⟨glob, hglob, htotal⟩ : ∃ glob, (BuddySet.newEmpty maxBuddyOrder).insertChunk 0 0 =
    some glob ∧ glob.totalSize = pageSize := ⟨_, rfl, rfl⟩
  refine ⟨glob, hglob, htotal, ?_⟩
  rw [balance, htotal]
  rfl

end Asterinas.FrameAllocator
