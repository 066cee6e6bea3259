import Asterinas.Ipc.Semaphore

/-!
# Semaphore sets keep no list waiting that could go ahead

Over every sequence of calls the values stay within bounds and are accounted for by the lists that
were completed, a pending list ends at most once, and none of the lists left pending could be
performed on the current values.

The cascade is described by `Over`, what a stretch of a scan has done to the lists that it ended,
and `Cascaded`, what a whole scan leaves behind.
-/

namespace Asterinas.SysvSem

open Function List

variable {n : ℕ}

/-! ### One list of operations -/

/-- What a list adds to semaphore `i` when it is performed. -/
def amount (sops : List (Sop n)) (i : Fin n) : ℤ :=
  ((sops.filter fun op => op.semNum = i).map Sop.semOp).sum

/-- The value is one a semaphore may have. -/
def InRange (val : ℤ) : Prop := 0 ≤ val ∧ val ≤ semvmx

/-- The operation can be performed on the value. -/
def Fits (val : ℤ) (op : Sop n) : Prop :=
  (op.semOp = 0 → val = 0) ∧ InRange (val + op.semOp)

/-- The list can be performed on the current values. -/
def Ready (sems : Fin n → Semaphore) (op : PendingOp n) : Prop :=
  ∀ sop ∈ op.sops, Fits (sems sop.semNum).val sop

/-- Every operation of the list waits for zero. -/
def Constant (op : PendingOp n) : Prop := ∀ sop ∈ op.sops, sop.semOp = 0

variable {op : PendingOp n}

lemma constant_of_not_isAlter (h : op.isAlter = false) : Constant op := by
  simpa [PendingOp.isAlter, Constant] using h

@[simp] lemma amount_nil (i : Fin n) : amount ([] : List (Sop n)) i = 0 := rfl

lemma amount_cons (op : Sop n) (rest : List (Sop n)) (i : Fin n) :
    amount (op :: rest) i = (if op.semNum = i then op.semOp else 0) + amount rest i := by
  unfold amount
  by_cases h : op.semNum = i <;> simp [h]

lemma amount_eq_zero_of_constant (h : Constant op) (i : Fin n) : amount op.sops i = 0 := by
  apply sum_eq_zero
  intro x hx
  obtain ⟨sop, hmem, rfl⟩ := mem_map.mp hx
  exact h sop (mem_of_mem_filter hmem)

lemma applySops_val (pid : ℕ) (sems : Fin n → Semaphore) (sops : List (Sop n)) (i : Fin n) :
    (applySops pid sems sops i).val = (sems i).val + amount sops i := by
  induction sops generalizing sems with
  | nil => simp [applySops]
  | cons op rest ih =>
    have hstep : applySops pid sems (op :: rest) =
        applySops pid (update sems op.semNum
          { val := (sems op.semNum).val + op.semOp, latestModifiedPid := pid }) rest := rfl
    rw [hstep, ih, amount_cons]
    by_cases h : op.semNum = i
    · subst h
      rw [update_self, if_pos rfl]
      ring
    · rw [update_of_ne (Ne.symm h), if_neg h]
      ring

variable {sops : List (Sop n)}

/-- A list alters a semaphore by the amount of one operation at most. -/
lemma amount_eq (h : AltersLast Sop.semNum Sop.semOp sops) (i : Fin n) :
    amount sops i = 0 ∨ ∃ op ∈ sops, op.semNum = i ∧ amount sops i = op.semOp := by
  induction sops with
  | nil => exact .inl rfl
  | cons op rest ih =>
    obtain ⟨hlast, hrest⟩ := pairwise_cons.mp h
    rw [amount_cons]
    by_cases halt : op.semNum = i ∧ op.semOp ≠ 0
    · -- no later operation names the semaphore
      have hzero : amount rest i = 0 := by
        have hnone : rest.filter (fun op => op.semNum = i) = [] := by
          apply filter_eq_nil_iff.mpr
          intro other hmem heq
          exact hlast other hmem halt.2 (halt.1.trans (by simpa using heq : other.semNum = i).symm)
        rw [amount, hnone]
        rfl
      exact .inr ⟨op, mem_cons_self, halt.1, by rw [if_pos halt.1, hzero, add_zero]⟩
    · have hskip : (if op.semNum = i then op.semOp else 0) = 0 := by
        by_cases hi : op.semNum = i
        · rw [if_pos hi]
          by_contra h0
          exact halt ⟨hi, h0⟩
        · rw [if_neg hi]
      rw [hskip, zero_add]
      rcases ih hrest with hz | ⟨other, hmem, hnum, heq⟩
      · exact .inl hz
      · exact .inr ⟨other, mem_cons_of_mem _ hmem, hnum, heq⟩

variable {sems : Fin n → Semaphore}

/-- A list that can be performed keeps the values within bounds. -/
lemma inRange_of_ready (hr : ∀ i, InRange (sems i).val) (h : Ready sems op) (i : Fin n) :
    InRange ((sems i).val + amount op.sops i) := by
  rcases amount_eq op.altersLast i with hz | ⟨sop, hmem, rfl, heq⟩
  · rw [hz, add_zero]
    exact hr i
  · rw [heq]
    exact (h sop hmem).2

/-- A list that can be performed is one that nothing blocks. -/
lemma blockerFrom_eq_notBlock :
    blockerFrom sems sops = .ok .notBlock ↔ ∀ sop ∈ sops, Fits (sems sop.semNum).val sop := by
  induction sops with
  | nil => simp [blockerFrom]
  | cons op rest ih =>
    rw [forall_mem_cons, ← ih, blockerFrom]
    unfold Fits InRange
    split
    · split <;> simp_all
    · split
      · split <;> simp <;> omega
      · split
        · simp
          omega
        · rename_i h0 hlow hhigh
          have hfits : (op.semOp = 0 → (sems op.semNum).val = 0) ∧
              0 ≤ (sems op.semNum).val + op.semOp ∧ (sems op.semNum).val + op.semOp ≤ semvmx := by
            refine ⟨fun hz => ?_, by omega, by omega⟩
            by_contra hne
            exact h0 ⟨hz, hne⟩
          exact (and_iff_right hfits).symm

/-- A status that a list can end with. -/
def Status.IsEnd (status : Status) : Prop :=
  status = .normal ∨ status = .errWouldBlock ∨ status = .errValRange

variable {status : Status}

lemma blockerFrom_error (h : blockerFrom sems sops = .error status) :
    status = .errWouldBlock ∨ status = .errValRange := by
  induction sops with
  | nil => cases h
  | cons op rest ih =>
    rw [blockerFrom] at h
    split at h
    · split at h <;> simp_all
    · split at h
      · split at h <;> simp_all
      · split at h
        · simp_all
        · exact ih h

/-- `perform_atomic_semop` takes the list whole or leaves the semaphores alone. -/
inductive Performs (sems : Fin n → Semaphore) (op : PendingOp n) :
    (Fin n → Semaphore) × Option Status → Prop
  | whole (h : Ready sems op) : Performs sems op (applySops op.pid sems op.sops, some .normal)
  | waits (h : ¬ Ready sems op) : Performs sems op (sems, none)
  | fails (h : ¬ Ready sems op) {status : Status} (hne : status ≠ .normal) (hend : status.IsEnd) :
      Performs sems op (sems, some status)

lemma performs (sems : Fin n → Semaphore) (op : PendingOp n) :
    Performs sems op (performAtomicSemop sems op) := by
  have hiff : op.blocker sems = .ok .notBlock ↔ Ready sems op := blockerFrom_eq_notBlock
  unfold performAtomicSemop
  cases hb : op.blocker sems with
  | error status =>
    refine .fails (fun h => by simp [hiff.mpr h] at hb) ?_ (.inr (blockerFrom_error hb))
    rcases blockerFrom_error hb with rfl | rfl <;> decide
  | ok b =>
    cases b with
    | notBlock => exact .whole (hiff.mp hb)
    | _ => exact .waits fun h => by simp [hiff.mpr h] at hb

lemma not_ready_of_waits {sems' : Fin n → Semaphore}
    (h : performAtomicSemop sems op = (sems', none)) : ¬ Ready sems op := by
  cases h ▸ performs sems op with
  | waits hnot => exact hnot

lemma unchanged_of_fails {sems' : Fin n → Semaphore}
    (h : performAtomicSemop sems op = (sems', some status)) (hne : status ≠ .normal) :
    sems = sems' ∧ status.IsEnd := by
  cases h ▸ performs sems op with
  | whole => exact absurd rfl hne
  | fails _ _ hend => exact ⟨rfl, hend⟩

lemma ready_of_performed {sems' : Fin n → Semaphore}
    (h : performAtomicSemop sems op = (sems', some .normal)) :
    Ready sems op ∧ ∀ i, (sems' i).val = (sems i).val + amount op.sops i := by
  cases h ▸ performs sems op with
  | whole hr => exact ⟨hr, applySops_val _ _ _⟩
  | fails _ hne => exact absurd rfl hne

/-! ### What a scan does to the lists that it ends -/

/-- What a list adds to semaphore `i` when it ends with a status. -/
def effect (i : Fin n) (e : PendingOp n × Status) : ℤ :=
  if e.2 = .normal then amount e.1.sops i else 0

/-- What a list that ends does to the values. -/
lemma effect_of_ended {sems' : Fin n → Semaphore}
    (h : performAtomicSemop sems op = (sems', some status)) :
    status.IsEnd ∧ ∀ i, (sems' i).val = (sems i).val + effect i (op, status) := by
  unfold effect
  cases h ▸ performs sems op with
  | whole => exact ⟨.inl rfl, applySops_val _ _ _⟩
  | fails _ hne hend => exact ⟨hend, by simp [hne]⟩

/-- From `s` to `s'` exactly the lists `ended` have ended, in the order of the wake queue. -/
structure Over (s s' : Scan n) (ended : List (PendingOp n × Status)) : Prop where
  queue : s'.wakeQueue = s.wakeQueue ++ ended.map Prod.fst
  isEnd : ∀ e ∈ ended, e.2.IsEnd
  vals : ∀ i, (s'.sems i).val = (s.sems i).val + (ended.map (effect i)).sum
  kept : ∀ c, (∀ e ∈ ended, e.1.status ≠ c) → s'.status c = s.status c
  told : (ended.map fun e => e.1.status).Nodup → ∀ e ∈ ended, s'.status e.1.status = e.2

lemma Over.refl (s : Scan n) : Over s s [] where
  queue := by simp
  isEnd := by simp
  vals := by simp
  kept := by simp
  told := by simp

lemma Over.trans {s₁ s₂ s₃ : Scan n} {l₁ l₂ : List (PendingOp n × Status)} (h1 : Over s₁ s₂ l₁)
    (h2 : Over s₂ s₃ l₂) : Over s₁ s₃ (l₁ ++ l₂) where
  queue := by rw [h2.queue, h1.queue, map_append, append_assoc]
  isEnd := by
    intro e he
    rcases mem_append.mp he with he | he
    · exact h1.isEnd e he
    · exact h2.isEnd e he
  vals i := by rw [h2.vals, h1.vals, map_append, sum_append, add_assoc]
  kept c hc := by
    rw [h2.kept c fun e he => hc e (mem_append_right _ he),
      h1.kept c fun e he => hc e (mem_append_left _ he)]
  told hnd := by
    rw [map_append] at hnd
    obtain ⟨hnd1, hnd2, hdisj⟩ := nodup_append.mp hnd
    intro e he
    rcases mem_append.mp he with he | he
    · -- the cells of the first stretch are not written in the second
      rw [h2.kept _ fun e' he' heq => hdisj _ (mem_map_of_mem he) _ (mem_map_of_mem he') heq.symm]
      exact h1.told hnd1 e he
    · exact h2.told hnd2 e he

variable {s : Scan n}

/-- One list ends: its cell is set and it joins the wake queue. -/
lemma Over.finish (hend : status.IsEnd)
    (hv : ∀ i, (sems i).val = (s.sems i).val + effect i (op, status)) :
    Over s ({ s with sems }.finish op status) [(op, status)] where
  queue := rfl
  isEnd := by simpa using hend
  vals i := by simpa [Scan.finish] using hv i
  kept c hc := update_of_ne (hc _ mem_cons_self).symm _ _
  told _ e he := by
    rw [mem_singleton.mp he]
    exact update_self _ _ _

variable {ended : List (PendingOp n × Status)}

/-- The list that made others ready joins the wake queue behind them, its cell being set first. -/
lemma Over.last {s' : Scan n} (hv : ∀ i, (sems i).val = (s.sems i).val + amount op.sops i)
    (h : Over { s with sems, status := update s.status op.status .normal } s' ended) :
    Over s { s' with wakeQueue := s'.wakeQueue ++ [op] } (ended ++ [(op, .normal)]) where
  queue := by simp [h.queue]
  isEnd e he := by
    rcases mem_append.mp he with he | he
    · exact h.isEnd e he
    · rw [mem_singleton.mp he]
      exact .inl rfl
  vals i := by
    have hs := h.vals i
    simp only [hv] at hs
    simp only [hs, map_append, map_cons, map_nil, sum_append, sum_singleton, effect, if_pos]
    ring
  kept c hc := by
    rw [show ({ s' with wakeQueue := s'.wakeQueue ++ [op] } : Scan n).status c = s'.status c from
      rfl, h.kept c fun e he => hc e (mem_append_left _ he)]
    exact update_of_ne (hc _ (mem_append_right _ mem_cons_self)).symm _ _
  told hnd e he := by
    rw [map_append] at hnd
    obtain ⟨hnd1, -, hdisj⟩ := nodup_append.mp hnd
    rcases mem_append.mp he with he | he
    · exact h.told hnd1 e he
    · rw [mem_singleton.mp he]
      have hcell := h.kept op.status fun e' he' heq =>
        hdisj _ (mem_map_of_mem he') _ mem_cons_self heq
      exact hcell.trans (update_self _ _ _)

/-! ### The scans -/

lemma ready_congr {sems' : Fin n → Semaphore} (h : ∀ i, (sems' i).val = (sems i).val)
    (op : PendingOp n) : Ready sems' op ↔ Ready sems op := by
  unfold Ready
  simp only [h]

/-- What a scan of the constant lists `ops` that keeps `kept` has done: the lists that can go ahead
have ended, and the values are as before. -/
structure Woken (s s' : Scan n) (ops kept : List (PendingOp n)) : Prop where
  ended : ∃ ended, Over s s' ended ∧ (kept ++ ended.map Prod.fst).Perm ops
  sub : kept.Sublist ops
  vals : ∀ i, (s'.sems i).val = (s.sems i).val
  blocked : ∀ op ∈ kept, ¬ Ready s'.sems op

variable {const : List (PendingOp n)}

lemma Woken.idle (h : ∀ op ∈ const, ¬ Ready s.sems op) : Woken s s const const :=
  ⟨⟨[], Over.refl s, by simp⟩, Sublist.refl _, fun _ => rfl, h⟩

lemma wakeConstOps_spec (s : Scan n) (ops : List (PendingOp n)) (hc : ∀ op ∈ ops, Constant op) :
    Woken s (wakeConstOps s ops).1 ops (wakeConstOps s ops).2.1 := by
  induction ops generalizing s with
  | nil => exact .idle (by simp)
  | cons op rest ih =>
    obtain ⟨hop, hrest⟩ := forall_mem_cons.mp hc
    rw [wakeConstOps]
    split
    · next hperf =>
      have hw := ih s hrest
      obtain ⟨ended, hover, hperm⟩ := hw.ended
      refine ⟨⟨ended, hover, hperm.cons op⟩, hw.sub.cons_cons op, hw.vals,
        forall_mem_cons.mpr ⟨fun hready => ?_, hw.blocked⟩⟩
      exact not_ready_of_waits hperf ((ready_congr hw.vals op).mp hready)
    · next sems status hperf =>
      obtain ⟨hend, hv⟩ := effect_of_ended hperf
      -- a constant list leaves the values as they are
      have hsame : ∀ i, (sems i).val = (s.sems i).val := by
        intro i
        rw [hv i, effect, amount_eq_zero_of_constant hop, ite_self, add_zero]
      have hw := ih ({ s with sems }.finish op status) hrest
      obtain ⟨ended, hover, hperm⟩ := hw.ended
      exact ⟨⟨(op, status) :: ended, (Over.finish hend hv).trans hover,
        perm_middle.trans (hperm.cons op)⟩, hw.sub.cons _, fun i => (hw.vals i).trans (hsame i),
          hw.blocked⟩

/-- A constant list that could not go ahead before `op` was performed can go ahead afterwards only
if a semaphore that `op` names has become zero. -/
lemma not_ready_of_no_zero {c : PendingOp n} {sems' : Fin n → Semaphore} (hc : Constant c)
    (hnot : ¬ Ready sems c) (hr : ∀ i, InRange (sems i).val)
    (hv : ∀ i, (sems' i).val = (sems i).val + amount op.sops i)
    (hz : ∀ sop ∈ op.sops, (sems' sop.semNum).val ≠ 0) : ¬ Ready sems' c := by
  intro hready
  apply hnot
  intro sop hmem
  have h0 : (sems' sop.semNum).val = 0 := (hready sop hmem).1 (hc sop hmem)
  rcases amount_eq op.altersLast sop.semNum with ha | ⟨other, hother, hnum, -⟩
  · have hval : (sems sop.semNum).val = 0 := by rw [← h0, hv, ha, add_zero]
    exact ⟨fun _ => hval, by rw [hc sop hmem, add_zero]; exact hr _⟩
  · exact absurd (hnum ▸ h0) (hz other hother)

/-- `do_smart_wakeup_zero`, called when `op` has just been performed, leaves no constant list
that can go ahead. -/
lemma doSmartWakeupZero_spec (hc : ∀ c ∈ const, Constant c)
    (hnot : ∀ c ∈ const, ¬ Ready sems c) (hr : ∀ i, InRange (sems i).val)
    (hv : ∀ i, (s.sems i).val = (sems i).val + amount op.sops i) :
    Woken s (doSmartWakeupZero s const op).1 const (doSmartWakeupZero s const op).2 := by
  unfold doSmartWakeupZero
  split
  · exact wakeConstOps_spec s const hc
  · rename_i hany
    have hz : ∀ sop ∈ op.sops, (s.sems sop.semNum).val ≠ 0 := by simpa using hany
    exact .idle fun c hmem => not_ready_of_no_zero (hc c hmem) (hnot c hmem) hr hv hz

/-- What a scan of the queues `alter` and `const` that leaves `alter'` and `const'` has done. -/
structure Cascaded (s s' : Scan n) (alter const alter' const' : List (PendingOp n)) : Prop where
  ended : ∃ ended, Over s s' ended ∧ (alter' ++ const' ++ ended.map Prod.fst).Perm (alter ++ const)
  alter_sub : alter'.Sublist alter
  const_sub : const'.Sublist const
  range : ∀ i, InRange (s'.sems i).val
  blocked : ∀ op ∈ alter' ++ const', ¬ Ready s'.sems op

variable {const₁ : List (PendingOp n)}

lemma Cascaded.idle {alter : List (PendingOp n)} (hr : ∀ i, InRange (s.sems i).val)
    (h : ∀ op ∈ alter ++ const, ¬ Ready s.sems op) : Cascaded s s alter const alter const :=
  ⟨⟨[], Over.refl s, by simp⟩, Sublist.refl _, Sublist.refl _, hr, h⟩

/-- The lists of both queues after a restart, when `op` and the lists it has woken are over. -/
lemma perm_cascade {alter const' front rest : List (PendingOp n)}
    {woken : List (PendingOp n × Status)} (h1 : (const₁ ++ woken.map Prod.fst).Perm const)
    (h2 : (alter ++ const' ++ ended.map Prod.fst).Perm (front ++ rest ++ const₁)) :
    (alter ++ const' ++ (woken ++ [(op, Status.normal)] ++ ended).map Prod.fst).Perm
      (front ++ op :: rest ++ const) := by
  rw [perm_iff_count] at *
  intro x
  have hc1 := h1 x
  have hc2 := h2 x
  simp only [map_append, map_cons, map_nil, count_append, count_cons, count_nil] at *
  omega

/-- The loop of `update_pending_alter`, from a point where neither a constant list nor a list in
front of the cursor can go ahead. -/
lemma updatePendingAlterFrom_spec (s : Scan n) (const front rest : List (PendingOp n))
    (hc : ∀ c ∈ const, Constant c) (hr : ∀ i, InRange (s.sems i).val)
    (hconst : ∀ c ∈ const, ¬ Ready s.sems c) (hfront : ∀ op ∈ front, ¬ Ready s.sems op) :
    Cascaded s (updatePendingAlterFrom s const front rest).1 (front ++ rest) const
      (updatePendingAlterFrom s const front rest).2.1
      (updatePendingAlterFrom s const front rest).2.2.1 := by
  induction s, const, front, rest using updatePendingAlterFrom.induct with
  | case1 s const front =>
    rw [updatePendingAlterFrom, append_nil]
    exact .idle hr fun op hop => (mem_append.mp hop).elim (hfront op) (hconst op)
  | case2 s const front op rest sems hperf ih =>
    have hcas := ih hc hr hconst fun op' hmem => by
      rcases mem_append.mp hmem with hmem | hmem
      · exact hfront op' hmem
      · rw [mem_singleton.mp hmem]
        exact not_ready_of_waits hperf
    rw [updatePendingAlterFrom, hperf]
    simpa using hcas
  | case3 s const front op rest sems status hperf hne ih =>
    -- the list fails and the semaphores are as they were
    obtain ⟨rfl, hend⟩ := unchanged_of_fails hperf hne
    have hcas := ih hc hr hconst hfront
    obtain ⟨ended, hover, hperm⟩ := hcas.ended
    rw [updatePendingAlterFrom, hperf]
    simp only [if_pos hne]
    refine ⟨⟨(op, status) :: ended, ?_, ?_⟩, ?_, hcas.const_sub, hcas.range, hcas.blocked⟩
    · refine (Over.finish hend fun i => ?_).trans hover
      rw [effect, if_neg hne, add_zero]
    · rw [map_cons]
      refine perm_middle.trans ((hperm.cons op).trans ?_)
      simp only [append_assoc, cons_append]
      exact perm_middle.symm
    · exact hcas.alter_sub.trans (Sublist.append_left (sublist_cons_self op rest) front)
  | case4 s const front op rest sems status hperf hst s₀ s₁ const₁ hzero s₂ s₃ alter' const' b
      hrec ih =>
    obtain rfl : status = .normal := by
      by_contra h
      exact hst h
    obtain ⟨hready, hv⟩ := ready_of_performed hperf
    have hw : Woken s₀ s₁ const const₁ := by
      have := doSmartWakeupZero_spec (s := s₀) hc hconst hr hv
      rwa [hzero] at this
    obtain ⟨woken, hover1, hperm1⟩ := hw.ended
    have hval2 : ∀ i, (s₂.sems i).val = (sems i).val := hw.vals
    have hcas := ih (fun c hmem => hc c (hw.sub.subset hmem))
      (fun i => by rw [hval2, hv]; exact inRange_of_ready hr hready i)
      hw.blocked (by simp)
    have heq : updatePendingAlterFrom s const front (op :: rest) = (s₃, alter', const', true) := by
      rw [updatePendingAlterFrom, hperf]
      simp only [if_neg hst, s₀, s₂] at hzero hrec ⊢
      simp only [hzero, hrec]
    rw [hrec] at hcas
    rw [heq]
    obtain ⟨ended, hover2, hperm2⟩ := hcas.ended
    refine ⟨⟨woken ++ [(op, .normal)] ++ ended, (Over.last hv hover1).trans hover2, ?_⟩, ?_,
      hcas.const_sub.trans hw.sub, hcas.range, hcas.blocked⟩
    · exact perm_cascade hperm1 hperm2
    · exact hcas.alter_sub.trans (Sublist.append_left (sublist_cons_self op rest) front)

/-- The constant lists are looked at first, then both queues are. -/
lemma Woken.cascaded {s₁ s₂ : Scan n} {alter alter' const' : List (PendingOp n)}
    (hw : Woken s s₁ const const₁) (hcas : Cascaded s₁ s₂ alter const₁ alter' const') :
    Cascaded s s₂ alter const alter' const' := by
  obtain ⟨woken, hover1, hperm1⟩ := hw.ended
  obtain ⟨ended, hover2, hperm2⟩ := hcas.ended
  refine ⟨⟨woken ++ ended, hover1.trans hover2, ?_⟩, hcas.alter_sub,
    hcas.const_sub.trans hw.sub, hcas.range, hcas.blocked⟩
  rw [perm_iff_count] at *
  intro x
  have hc1 := hperm1 x
  have hc2 := hperm2 x
  simp only [map_append, count_append] at *
  omega

lemma updatePendingAlter_spec {s₁ : Scan n} (alter : List (PendingOp n))
    (hw : Woken s s₁ const const₁) (hc : ∀ c ∈ const, Constant c)
    (hr : ∀ i, InRange (s.sems i).val) :
    Cascaded s (updatePendingAlter s₁ alter const₁).1 alter const
      (updatePendingAlter s₁ alter const₁).2.1 (updatePendingAlter s₁ alter const₁).2.2.1 := by
  apply hw.cascaded
  apply updatePendingAlterFrom_spec s₁ const₁ [] alter
  · exact fun c hmem => hc c (hw.sub.subset hmem)
  · exact fun i => hw.vals i ▸ hr i
  · exact hw.blocked
  · simp

/-- `do_smart_update`, called when `op` has just been performed. -/
lemma doSmartUpdate_spec (alter : List (PendingOp n)) (hc : ∀ c ∈ const, Constant c)
    (hnot : ∀ c ∈ const, ¬ Ready sems c) (hr : ∀ i, InRange (sems i).val)
    (hready : Ready sems op) (hv : ∀ i, (s.sems i).val = (sems i).val + amount op.sops i) :
    Cascaded s (doSmartUpdate s alter const op).1 alter const
      (doSmartUpdate s alter const op).2.1 (doSmartUpdate s alter const op).2.2 := by
  have hrange : ∀ i, InRange (s.sems i).val := fun i => by
    rw [hv]
    exact inRange_of_ready hr hready i
  -- with no constant list pending the first scan has nothing to do
  have hw : ∃ s₁ const₁, Woken s s₁ const const₁ ∧
      (if const.isEmpty then (s, const) else doSmartWakeupZero s const op) = (s₁, const₁) := by
    by_cases hemp : const.isEmpty
    · refine ⟨s, const, ?_, if_pos hemp⟩
      exact .idle (by simp [isEmpty_iff.mp hemp])
    · exact ⟨_, _, doSmartWakeupZero_spec hc hnot hr hv, if_neg hemp⟩
  obtain ⟨s₁, const₁, hwoken, heq⟩ := hw
  unfold doSmartUpdate
  rw [heq]
  dsimp only
  split
  · rename_i hemp
    rw [isEmpty_iff.mp hemp]
    exact hwoken.cascaded (.idle (fun i => hwoken.vals i ▸ hrange i) hwoken.blocked)
  · exact updatePendingAlter_spec _ hwoken hc hrange

/-! ### Runs -/

/-- What happens to the values and to the lists. -/
inductive Event (n : ℕ)
  /-- A semaphore was given a value. -/
  | set (semNum : Fin n) (val : ℤ)
  /-- A list was over when its caller came, who was told the status. -/
  | direct (op : PendingOp n) (status : Status)
  /-- A pending list is over. -/
  | ended (op : PendingOp n) (status : Status)
  /-- The caller of a pending list has given up. -/
  | withdrawn (op : PendingOp n)

/-- The list that the event is the end of, by its cell. -/
def Event.cell : Event n → Option ℕ
  | .set _ _ => none
  | .direct op _ => some op.status
  | .ended op _ => some op.status
  | .withdrawn op => some op.status

/-- What the event makes of the value of semaphore `i`. -/
def Event.apply (i : Fin n) (val : ℤ) : Event n → ℤ
  | .set semNum v => if semNum = i then v else val
  | .direct op status => val + effect i (op, status)
  | .ended op status => val + effect i (op, status)
  | .withdrawn _ => val

/-- The value of semaphore `i` by the history: the last value it was given, and since then the
amounts of the lists that were completed. -/
def replay (history : List (Event n)) (i : Fin n) : ℤ :=
  history.foldl (fun val e => e.apply i val) 0

/-- A semaphore set and what has happened to it. -/
structure Run (n : ℕ) where
  set : SemaphoreSet n
  history : List (Event n)

/-- The calls on a set, each atomic under its lock. -/
inductive Call
  | semop (sops : List SemBuf) (pid now : ℕ)
  | setval (semNum : ℕ) (val : ℤ) (pid now : ℕ)
  | cancel (isAlter : Bool) (cell : ℕ)

/-- The lists of the wake queue have ended with the status in their cells. -/
def endings (set : SemaphoreSet n) (queue : List (PendingOp n)) : List (Event n) :=
  queue.map fun op => .ended op (set.status op.status)

/-- One call. -/
def Run.step (r : Run n) : Call → Run n
  | .semop sops pid now =>
    let (result, set, queue) := semOp sops pid now r.set
    let direct := match prepare sops pid r.set, result with
      | .ok op, .ok (.completed status) => [.direct op status]
      | _, _ => []
    ⟨set, r.history ++ direct ++ endings set queue⟩
  | .setval semNum val pid now =>
    let (result, set, queue) := setval semNum val pid now r.set
    let given := match result with
      | .ok () => if h : semNum < n then [.set ⟨semNum, h⟩ val] else []
      | .error _ => []
    ⟨set, r.history ++ given ++ endings set queue⟩
  | .cancel isAlter cell =>
    let queue := if isAlter then r.set.pendingAlter else r.set.pendingConst
    ⟨cancelPending isAlter cell r.set,
      r.history ++ (queue.filter fun op => op.status = cell).map .withdrawn⟩

/-- A set of `n` semaphores made at time `now`, after the given calls. -/
def Run.after (n now : ℕ) (calls : List Call) : Run n :=
  calls.foldl Run.step ⟨SemaphoreSet.new n now, []⟩

/-- The cells of all lists that were ever made and not refused. -/
def Run.cells (r : Run n) : List ℕ :=
  (r.set.pendingAlter ++ r.set.pendingConst).map PendingOp.status ++ r.history.filterMap Event.cell

/-- What every call preserves. -/
structure Run.Sound (r : Run n) : Prop where
  range : ∀ i, InRange (r.set.sems i).val
  constant : ∀ op ∈ r.set.pendingConst, Constant op
  blocked : ∀ op ∈ r.set.pendingAlter ++ r.set.pendingConst, ¬ Ready r.set.sems op
  accounted : ∀ i, (r.set.sems i).val = replay r.history i
  nodup : r.cells.Nodup
  fresh : ∀ c ∈ r.cells, c < r.set.nextCell
  told : ∀ op status, .ended op status ∈ r.history → status.IsEnd ∧ r.set.status op.status = status

lemma replay_append (h l : List (Event n)) (i : Fin n) :
    replay (h ++ l) i = l.foldl (fun val e => e.apply i val) (replay h i) :=
  foldl_append

/-- The lists of a scan add their effects to the value. -/
lemma replay_append_ended (h : List (Event n)) (ended : List (PendingOp n × Status)) (i : Fin n) :
    replay (h ++ ended.map fun e => .ended e.1 e.2) i =
      replay h i + (ended.map (effect i)).sum := by
  rw [replay_append]
  generalize replay h i = val
  induction ended generalizing val with
  | nil => simp
  | cons e rest ih =>
    rw [map_cons, foldl_cons, ih, map_cons, sum_cons, ← add_assoc]
    rfl

lemma replay_append_withdrawn (h : List (Event n)) (gone : List (PendingOp n)) (i : Fin n) :
    replay (h ++ gone.map .withdrawn) i = replay h i := by
  rw [replay_append]
  induction gone with
  | nil => rfl
  | cons op rest ih => exact ih

variable {set : SemaphoreSet n}

/-- The wake queue of a scan, with the statuses in the cells, is the list of what has ended. -/
lemma endings_eq {s' : Scan n} (h : Over s s' ended) (hq : s.wakeQueue = [])
    (hset : set.status = s'.status) (hnd : (ended.map fun e => e.1.status).Nodup) :
    endings set s'.wakeQueue = ended.map fun e => .ended e.1 e.2 := by
  rw [endings, h.queue, hq, nil_append, map_map]
  apply map_congr_left
  intro e he
  rw [comp_apply, hset, h.told hnd e he]

lemma filterMap_cell_ended (ended : List (PendingOp n × Status)) :
    (ended.map fun e => Event.ended e.1 e.2).filterMap Event.cell =
      ended.map fun e => e.1.status := by
  rw [filterMap_map]
  exact congrFun filterMap_eq_map' _

variable {r : Run n}

/-- A call that makes the lists with the cells `new`, and loses track of none. -/
lemma Run.Sound.cells_of_perm {new : List ℕ} {r' : Run n} (hr : r.Sound)
    (hperm : r'.cells.Perm (r.cells ++ new)) (hnew : new.Nodup)
    (hfresh : ∀ c ∈ new, r.set.nextCell ≤ c ∧ c < r'.set.nextCell)
    (hnext : r.set.nextCell ≤ r'.set.nextCell) :
    r'.cells.Nodup ∧ ∀ c ∈ r'.cells, c < r'.set.nextCell := by
  refine ⟨hperm.nodup_iff.mpr (nodup_append.mpr ⟨hr.nodup, hnew, ?_⟩), fun c hc => ?_⟩
  · rintro c hc _ hc' rfl
    have := hr.fresh c hc
    have := (hfresh c hc').1
    omega
  · rcases mem_append.mp (hperm.mem_iff.mp hc) with hc | hc
    · exact (hr.fresh c hc).trans_le hnext
    · exact (hfresh c hc).2

/-- A call whose scan ends lists keeps the run sound.  The events `first` come before the scan:
they bring the values to those that the scan starts from, and name fresh cells only. -/
lemma Run.Sound.cascade {s' : Scan n} (hr : r.Sound) {first : List (Event n)}
    (hq : s.wakeQueue = []) (hst : s.status = r.set.status)
    (hval : ∀ i, (s.sems i).val = replay (r.history ++ first) i)
    (hcas : Cascaded s s' r.set.pendingAlter r.set.pendingConst set.pendingAlter set.pendingConst)
    (hsems : set.sems = s'.sems) (hstatus : set.status = s'.status)
    (hnext : r.set.nextCell ≤ set.nextCell) (hfirst : (first.filterMap Event.cell).Nodup)
    (hcells : ∀ c ∈ first.filterMap Event.cell, r.set.nextCell ≤ c ∧ c < set.nextCell)
    (hnone : ∀ op status, .ended op status ∉ first) :
    (⟨set, r.history ++ first ++ endings set s'.wakeQueue⟩ : Run n).Sound := by
  obtain ⟨ended, hover, hperm⟩ := hcas.ended
  -- the lists of both queues before are those after and those that ended
  have hpermCells : ((set.pendingAlter ++ set.pendingConst).map PendingOp.status ++
      ended.map fun e => e.1.status).Perm
      ((r.set.pendingAlter ++ r.set.pendingConst).map PendingOp.status) := by
    have := hperm.map PendingOp.status
    simpa [comp_def] using this
  have hpending := (nodup_append.mp hr.nodup).1
  have hnd : (ended.map fun e => e.1.status).Nodup :=
    (nodup_append.mp (hpermCells.nodup_iff.mpr hpending)).2.1
  have hends := endings_eq hover hq hstatus hnd
  have hperm' : (⟨set, r.history ++ first ++ endings set s'.wakeQueue⟩ : Run n).cells.Perm
      (r.cells ++ first.filterMap Event.cell) := by
    unfold Run.cells
    rw [hends, filterMap_append, filterMap_append, filterMap_cell_ended]
    rw [perm_iff_count] at hpermCells ⊢
    intro c
    have := hpermCells c
    simp only [count_append] at this ⊢
    omega
  obtain ⟨hnodup, hfresh⟩ := hr.cells_of_perm hperm' hfirst hcells hnext
  refine ⟨?_, ?_, ?_, ?_, hnodup, hfresh, ?_⟩
  · rw [hsems]
    exact hcas.range
  · exact fun op hmem => hr.constant op (hcas.const_sub.subset hmem)
  · rw [hsems]
    exact hcas.blocked
  · intro i
    rw [hends, replay_append_ended, ← hval, hsems, hover.vals]
  · intro op status hmem
    rw [hends] at hmem
    rcases mem_append.mp hmem with hmem | hmem
    · rcases mem_append.mp hmem with hmem | hmem
      · -- an earlier end: its list is not pending, so its cell is not written
        obtain ⟨hend, htold⟩ := hr.told op status hmem
        refine ⟨hend, ?_⟩
        rw [hstatus, hover.kept, hst, htold]
        intro e he heq
        have hin : op.status ∈ r.history.filterMap Event.cell :=
          mem_filterMap.mpr ⟨_, hmem, rfl⟩
        have hpend : e.1.status ∈ (r.set.pendingAlter ++ r.set.pendingConst).map PendingOp.status :=
          hpermCells.subset (mem_append_right _ (mem_map_of_mem he))
        exact (nodup_append.mp hr.nodup).2.2 _ hpend _ hin heq
      · exact absurd hmem (hnone op status)
    · obtain ⟨e, he, heq⟩ := mem_map.mp hmem
      cases heq
      exact ⟨hover.isEnd e he, by rw [hstatus]; exact hover.told hnd e he⟩

/-! ### The calls keep the run sound -/

/-- A call that scans nothing and keeps the values. -/
lemma Run.Sound.idle (hr : r.Sound) (s : Scan n) (hv : ∀ i, (s.sems i).val = (r.set.sems i).val) :
    Cascaded s s r.set.pendingAlter r.set.pendingConst r.set.pendingAlter r.set.pendingConst :=
  .idle (fun i => hv i ▸ hr.range i)
    fun op hmem hready => hr.blocked op hmem ((ready_congr hv op).mp hready)

lemma prepare_status {pid : ℕ} {sops : List SemBuf}
    (h : prepare sops pid set = .ok op) : op.status = set.nextCell := by
  unfold prepare at h
  split at h
  · cases h
  · unfold PendingOp.new at h
    split at h
    · cases h
    · cases h
      rfl

/-- The list of the caller is over at once, and the scan starts from the values that it leaves. -/
lemma Run.Sound.direct {t : Scan n} (hr : r.Sound) (hnew : op.status = r.set.nextCell)
    (hv : ∀ i, (s.sems i).val = (r.set.sems i).val + effect i (op, status))
    (hq : s.wakeQueue = []) (hst : s.status = r.set.status)
    (hcas : Cascaded s t r.set.pendingAlter r.set.pendingConst set.pendingAlter set.pendingConst)
    (hsems : set.sems = t.sems) (hstatus : set.status = t.status)
    (hnext : set.nextCell = r.set.nextCell + 1) :
    (⟨set, r.history ++ [.direct op status] ++ endings set t.wakeQueue⟩ : Run n).Sound := by
  have hfirst : ([.direct op status] : List (Event n)).filterMap Event.cell = [op.status] := rfl
  refine hr.cascade hq hst (fun i => ?_) hcas hsems hstatus (by omega) (by simp [hfirst])
    (by simp [hfirst, hnew, hnext]) (by simp)
  rw [hv, replay_append, ← hr.accounted]
  rfl

/-- The lists `new` have to wait and join the queues, and the lists `gone` are withdrawn. -/
lemma Run.Sound.requeue (hr : r.Sound) (new gone : List (PendingOp n)) {past : List (Event n)}
    (hpast : past = r.history ++ gone.map .withdrawn) (hsems : set.sems = r.set.sems)
    (hstatus : set.status = r.set.status)
    (hperm : (set.pendingAlter ++ set.pendingConst ++ gone).Perm
      (r.set.pendingAlter ++ r.set.pendingConst ++ new))
    (hconst : ∀ c ∈ set.pendingConst, c ∈ r.set.pendingConst ∨ Constant c)
    (hnot : ∀ op ∈ new, ¬ Ready r.set.sems op) (hnew : (new.map PendingOp.status).Nodup)
    (hcells : ∀ c ∈ new.map PendingOp.status, r.set.nextCell ≤ c ∧ c < set.nextCell)
    (hnext : r.set.nextCell ≤ set.nextCell) :
    (⟨set, past⟩ : Run n).Sound := by
  subst hpast
  have hperm' : (⟨set, r.history ++ gone.map .withdrawn⟩ : Run n).cells.Perm
      (r.cells ++ new.map PendingOp.status) := by
    have hgone : (gone.map Event.withdrawn).filterMap Event.cell = gone.map PendingOp.status := by
      rw [filterMap_map]
      exact congrFun filterMap_eq_map' _
    have hstat := hperm.map PendingOp.status
    unfold Run.cells
    rw [filterMap_append, hgone]
    rw [perm_iff_count] at hstat ⊢
    intro c
    have := hstat c
    simp only [map_append, count_append] at this ⊢
    omega
  obtain ⟨hnodup, hfresh⟩ := hr.cells_of_perm hperm' hnew hcells hnext
  refine ⟨?_, ?_, ?_, ?_, hnodup, hfresh, ?_⟩
  · rw [hsems]
    exact hr.range
  · exact fun c hc => (hconst c hc).elim (hr.constant c) id
  · intro c hc
    rw [hsems]
    rcases mem_append.mp (hperm.subset (mem_append_left _ hc)) with hc | hc
    · exact hr.blocked c hc
    · exact hnot c hc
  · intro i
    rw [hsems, replay_append_withdrawn, hr.accounted]
  · intro op status hmem
    rw [hstatus]
    rcases mem_append.mp hmem with hmem | hmem
    · exact hr.told op status hmem
    · simp at hmem

/-- The part of `sem_op` under the lock. -/
lemma Run.Sound.semOpLocked {now : ℕ} {result : SemOpResult} {queue : List (PendingOp n)}
    (hr : r.Sound) (hnew : op.status = r.set.nextCell)
    (h : semOpLocked op now { r.set with nextCell := r.set.nextCell + 1 } = (result, set, queue)) :
    match result with
    | .completed status =>
      (⟨set, r.history ++ [.direct op status] ++ endings set queue⟩ : Run n).Sound
    | .pending _ => queue = [] ∧ (⟨set, r.history⟩ : Run n).Sound := by
  unfold SysvSem.semOpLocked at h
  split at h
  · rename_i sems status hperf
    obtain ⟨-, hv⟩ := effect_of_ended hperf
    by_cases hne : status ≠ .normal
    · -- the list fails
      obtain ⟨rfl, -⟩ := unchanged_of_fails hperf hne
      rw [if_pos hne] at h
      cases h
      exact hr.direct (s := r.set.scan) (t := r.set.scan) hnew hv rfl rfl (hr.idle _ fun _ => rfl)
        rfl rfl rfl
    · rw [if_neg hne] at h
      obtain rfl : status = .normal := by simpa using hne
      obtain ⟨hready, hadd⟩ := ready_of_performed hperf
      by_cases halter : op.isAlter = true
      · simp only [if_pos halter] at h
        cases h
        have hcas := doSmartUpdate_spec (s := ⟨sems, r.set.status, []⟩) r.set.pendingAlter
          hr.constant
          (fun c hc => hr.blocked c (mem_append_right _ hc)) hr.range hready hadd
        exact hr.direct hnew hv rfl rfl hcas rfl rfl rfl
      · simp only [if_neg halter] at h
        cases h
        have hconst := constant_of_not_isAlter (Bool.not_eq_true _ ▸ halter)
        have hsame : ∀ i, (sems i).val = (r.set.sems i).val := by
          intro i
          rw [hadd, amount_eq_zero_of_constant hconst, add_zero]
        exact hr.direct (s := ⟨sems, r.set.status, []⟩) (t := ⟨sems, r.set.status, []⟩) hnew
          hv rfl rfl
          (hr.idle _ hsame) rfl rfl rfl
  · rename_i sems hperf
    have hnot : ¬ Ready r.set.sems op := not_ready_of_waits hperf
    cases h
    refine ⟨rfl, ?_⟩
    have hnot : ∀ c ∈ [{ op with waker := some op.status }], ¬ Ready r.set.sems c :=
      fun c hc => mem_singleton.mp hc ▸ hnot
    by_cases halter : op.isAlter = true
    · rw [if_pos halter]
      refine hr.requeue _ [] (by simp) rfl rfl ?_ (fun c hc => .inl hc) hnot (by simp)
        (by simp [hnew]) (Nat.le_succ _)
      simpa using (perm_append_singleton _ _).symm.append_left _
    · rw [if_neg halter]
      refine hr.requeue _ [] (by simp) rfl rfl (by simp) (fun c hc => ?_) hnot (by simp)
        (by simp [hnew]) (Nat.le_succ _)
      · rcases mem_append.mp hc with hc | hc
        · exact .inl hc
        · rw [mem_singleton.mp hc]
          exact .inr (constant_of_not_isAlter (Bool.not_eq_true _ ▸ halter))

lemma Run.Sound.semop (hr : r.Sound) (sops : List SemBuf) (pid now : ℕ) :
    (r.step (.semop sops pid now)).Sound := by
  simp only [Run.step, semOp]
  cases hprep : prepare sops pid r.set with
  | error e => simpa [endings] using hr
  | ok op =>
    dsimp only
    generalize hrun : SysvSem.semOpLocked op now { r.set with nextCell := r.set.nextCell + 1 } = out
    obtain ⟨result, set, queue⟩ := out
    have hsound := hr.semOpLocked (prepare_status hprep) hrun
    cases result with
    | completed status => exact hsound
    | pending c => simpa [hsound.1, endings] using hsound.2

/-- A constant list that could not go ahead cannot go ahead either when a semaphore is given a
value other than zero. -/
lemma not_ready_of_set {c : PendingOp n} {val : ℤ} {i : Fin n} {pid : ℕ} (hc : Constant c)
    (hnot : ¬ Ready sems c) (hval : val ≠ 0) : ¬ Ready (update sems i ⟨val, pid⟩) c := by
  intro hready
  apply hnot
  intro sop hmem
  have hfits := hready sop hmem
  by_cases hi : sop.semNum = i
  · rw [hi, update_self] at hfits
    exact absurd (hfits.1 (hc sop hmem)) hval
  · rwa [update_of_ne hi] at hfits

lemma Run.Sound.setval (hr : r.Sound) (semNum : ℕ) (val : ℤ) (pid now : ℕ) :
    (r.step (.setval semNum val pid now)).Sound := by
  simp only [Run.step, SysvSem.setval]
  by_cases hrange : 0 ≤ val ∧ val ≤ semvmx
  swap
  · rw [if_pos hrange]
    simpa [endings] using hr
  rw [if_neg (not_not.mpr hrange)]
  by_cases hn : semNum < n
  swap
  · rw [dif_neg hn]
    simpa [endings] using hr
  rw [dif_pos hn]
  set sems := update r.set.sems ⟨semNum, hn⟩ ⟨val, pid⟩ with hsems
  set s : Scan n := ⟨sems, r.set.status, []⟩ with hs
  have hin : ∀ i, InRange (sems i).val := by
    intro i
    by_cases hi : i = ⟨semNum, hn⟩
    · rw [hsems, hi, update_self]
      exact hrange
    · rw [hsems, update_of_ne hi]
      exact hr.range i
  have hval : ∀ i, (sems i).val = replay (r.history ++ [.set ⟨semNum, hn⟩ val]) i := by
    intro i
    rw [replay_append, ← hr.accounted, hsems]
    by_cases hi : i = ⟨semNum, hn⟩
    · rw [hi, update_self]
      simp [Event.apply]
    · rw [update_of_ne hi]
      simp [Event.apply, Ne.symm hi]
  -- only a zero can make a constant list ready
  have hw : ∃ s₁ const₁ b, Woken s s₁ r.set.pendingConst const₁ ∧
      (if val = 0 then wakeConstOps s r.set.pendingConst else (s, r.set.pendingConst, false)) =
        (s₁, const₁, b) := by
    by_cases hz : val = 0
    · exact ⟨_, _, _, wakeConstOps_spec s _ hr.constant, if_pos hz⟩
    · refine ⟨_, _, _, .idle fun c hc => ?_, if_neg hz⟩
      exact not_ready_of_set (hr.constant c hc) (hr.blocked c (mem_append_right _ hc)) hz
  obtain ⟨s₁, const₁, b, hwoken, heq⟩ := hw
  have hcas := updatePendingAlter_spec r.set.pendingAlter hwoken hr.constant hin
  simp only [SemaphoreSet.scan, ← hs, heq]
  -- the two branches differ in the time of the last operation only
  split
  all_goals
    exact hr.cascade (s := s) rfl rfl hval hcas rfl rfl le_rfl nodup_nil
      (fun c hc => absurd hc not_mem_nil) (by simp)

lemma Run.Sound.cancel (hr : r.Sound) (isAlter : Bool) (cell : ℕ) :
    (r.step (.cancel isAlter cell)).Sound := by
  have hsplit : ∀ l : List (PendingOp n), ((l.filter fun op => op.status ≠ cell) ++
      l.filter fun op => op.status = cell).Perm l := by
    intro l
    refine perm_append_comm.trans ?_
    simpa using filter_append_perm (fun op : PendingOp n => decide (op.status = cell)) l
  cases isAlter with
  | true =>
    have hperm := (hsplit r.set.pendingAlter).append_right r.set.pendingConst
    rw [append_assoc] at hperm
    refine hr.requeue [] _ rfl rfl rfl ?_ (fun c hc => .inl hc) (by simp) nodup_nil (by simp) le_rfl
    rw [append_assoc, append_nil]
    exact (perm_append_comm.append_left _).trans hperm
  | false =>
    have hperm := (hsplit r.set.pendingConst).append_left r.set.pendingAlter
    rw [← append_assoc] at hperm
    refine hr.requeue [] _ rfl rfl rfl ?_ (fun c hc => .inl (mem_of_mem_filter hc)) (by simp)
      nodup_nil (by simp) le_rfl
    rwa [append_nil]

lemma Run.Sound.new (n now : ℕ) : (⟨SemaphoreSet.new n now, []⟩ : Run n).Sound where
  range _ := by simp [InRange, SemaphoreSet.new, semvmx]
  constant := by simp [SemaphoreSet.new]
  blocked := by simp [SemaphoreSet.new]
  accounted _ := rfl
  nodup := nodup_nil
  fresh := by simp [Run.cells, SemaphoreSet.new]
  told := by simp

lemma Run.Sound.step (hr : r.Sound) (call : Call) : (r.step call).Sound := by
  cases call with
  | semop sops pid now => exact hr.semop sops pid now
  | setval semNum val pid now => exact hr.setval semNum val pid now
  | cancel isAlter cell => exact hr.cancel isAlter cell

lemma Run.Sound.foldl (hr : r.Sound) (calls : List Call) : (calls.foldl Run.step r).Sound := by
  induction calls generalizing r with
  | nil => exact hr
  | cons call rest ih => exact ih (hr.step call)

end Asterinas.SysvSem
