import Mathlib.Tactic

/-!
# Ordered maps

A finite map from a linear order, kept as its entries in ascending order of the keys.  Besides the
usual operations it has the neighbours of a key in the order, which is what the cursors of a search
tree give.
-/

namespace Framework

open List

lemma ne_none_of_eq_some {α : Type} {o : Option α} {a : α} (h : o = some a) : o ≠ none := by
  rw [h]
  exact Option.some_ne_none a

/-- A finite map, as its entries in strictly ascending order of the keys. -/
@[ext] structure OrderedMap (K V : Type) [LinearOrder K] where
  entries : List (K × V)
  sorted : entries.Pairwise (fun a b => a.1 < b.1)
deriving DecidableEq

namespace OrderedMap

variable {K V : Type} [LinearOrder K] {m : OrderedMap K V} {k : K} {v : V}

/-- The map without entries. -/
def empty : OrderedMap K V := ⟨[], .nil⟩

@[simp] lemma entries_empty : (empty : OrderedMap K V).entries = [] := rfl

section

variable (m : OrderedMap K V)

/-- The values in ascending order of their keys. -/
def values : List V := m.entries.map (·.2)

/-- The value of a key. -/
def get? (k : K) : Option V :=
  (m.entries.find? (fun e => e.1 = k)).map (·.2)

/-- The map with the value of `k` set to `v`. -/
def insert (k : K) (v : V) : OrderedMap K V where
  entries := m.entries.filter (·.1 < k) ++ (k, v) :: m.entries.filter (k < ·.1)
  sorted := by
    refine pairwise_append.mpr ⟨m.sorted.filter _, ?_, ?_⟩
    · refine pairwise_cons.mpr ⟨?_, m.sorted.filter _⟩
      intro e he
      simpa using (mem_filter.mp he).2
    · intro a ha b hb
      have hak : a.1 < k := by simpa using (mem_filter.mp ha).2
      rcases mem_cons.mp hb with rfl | hb
      · exact hak
      · have hkb : k < b.1 := by simpa using (mem_filter.mp hb).2
        exact hak.trans hkb

/-- The map without the key `k`. -/
def erase (k : K) : OrderedMap K V where
  entries := m.entries.filter (·.1 ≠ k)
  sorted := m.sorted.filter _

/-- The value of the last key that passes the test. -/
def lastWhere (p : K → Bool) : Option V :=
  ((m.entries.filter (p ·.1)).getLast?).map (·.2)

/-- The entries whose keys are above `k`, in ascending order. -/
def above (k : K) : List V :=
  (m.entries.filter (k < ·.1)).map (·.2)

end

/-! ### Membership -/

lemma mem_values : v ∈ m.values ↔ ∃ k, (k, v) ∈ m.entries := by
  simp [values]

@[simp] lemma mem_entries_insert {e : K × V} :
    e ∈ (m.insert k v).entries ↔ e = (k, v) ∨ (e ∈ m.entries ∧ e.1 ≠ k) := by
  simp only [insert, mem_append, mem_cons, mem_filter, decide_eq_true_eq, ne_iff_lt_or_gt]
  tauto

@[simp] lemma mem_entries_erase {e : K × V} :
    e ∈ (m.erase k).entries ↔ e ∈ m.entries ∧ e.1 ≠ k := by
  simp [erase]

/-- A key has one value. -/
lemma eq_of_mem_of_key_eq {a b : K × V} (ha : a ∈ m.entries) (hb : b ∈ m.entries) (h : a.1 = b.1) :
    a = b := by
  have hkeys : (m.entries.map Prod.fst).Nodup :=
    pairwise_map.mpr (m.sorted.imp fun hlt => hlt.ne)
  exact inj_on_of_nodup_map hkeys ha hb h

lemma get?_eq_some : m.get? k = some v ↔ (k, v) ∈ m.entries := by
  constructor
  · intro h
    obtain ⟨e, he, rfl⟩ := Option.map_eq_some_iff.mp h
    have hk : e.1 = k := by simpa using find?_some he
    exact hk ▸ mem_of_find?_eq_some he
  · intro h
    cases hf : m.entries.find? (fun e => e.1 = k) with
    | none => simpa using find?_eq_none.mp hf (k, v) h
    | some e =>
      have hk : e.1 = k := by simpa using find?_some hf
      have := eq_of_mem_of_key_eq (mem_of_find?_eq_some hf) h hk
      simp [get?, hf, this]

/-! ### Neighbours -/

lemma lastWhere_eq_some {p : K → Bool} (h : m.lastWhere p = some v) :
    ∃ k, (k, v) ∈ m.entries ∧ p k ∧ ∀ e ∈ m.entries, p e.1 → e.1 ≤ k := by
  obtain ⟨e, he, rfl⟩ := Option.map_eq_some_iff.mp h
  obtain ⟨init, hinit⟩ := getLast?_eq_some_iff.mp he
  have hmem : e ∈ m.entries.filter (p ·.1) := by simp [hinit]
  refine ⟨e.1, (mem_filter.mp hmem).1, (mem_filter.mp hmem).2, ?_⟩
  intro x hx hpx
  have hsorted := m.sorted.filter (fun x => p x.1)
  rw [hinit] at hsorted
  have hx' : x ∈ init ++ [e] := hinit ▸ mem_filter.mpr ⟨hx, hpx⟩
  rcases mem_append.mp hx' with hx' | hx'
  · exact ((pairwise_append.mp hsorted).2.2 x hx' e (by simp)).le
  · rw [mem_singleton.mp hx']

lemma lastWhere_eq_none {p : K → Bool} : m.lastWhere p = none ↔ ∀ e ∈ m.entries, ¬ p e.1 := by
  simp [lastWhere]

/-- Reading the entries above a key until a test fails loses nothing when the test, once failed,
keeps failing. -/
lemma mem_takeWhile_above {p : V → Bool}
    (hp : ∀ a ∈ m.entries, ∀ b ∈ m.entries, a.1 < b.1 → p b.2 → p a.2) :
    v ∈ (m.above k).takeWhile p ↔ v ∈ m.above k ∧ p v := by
  have hpair : (m.above k).Pairwise (fun a b => p b → p a) := by
    refine pairwise_map.mpr ?_
    refine (m.sorted.filter _).imp_of_mem fun {a b} ha hb hlt => ?_
    exact hp a (mem_filter.mp ha).1 b (mem_filter.mp hb).1 hlt
  generalize m.above k = vs at hpair ⊢
  induction vs with
  | nil => simp
  | cons head tail ih =>
    obtain ⟨hhead, htail⟩ := pairwise_cons.mp hpair
    rw [takeWhile_cons]
    split
    · rename_i hph
      simp only [mem_cons, ih htail]
      constructor
      · rintro (rfl | h)
        · exact ⟨.inl rfl, hph⟩
        · exact ⟨.inr h.1, h.2⟩
      · rintro ⟨rfl | h, hpv⟩
        · exact .inl rfl
        · exact .inr ⟨h, hpv⟩
    · rename_i hph
      simp only [not_mem_nil, mem_cons, false_iff, not_and]
      rintro (rfl | h) hpv
      · exact hph hpv
      · exact hph (hhead v h hpv)

lemma mem_above : v ∈ m.above k ↔ ∃ k', k < k' ∧ (k', v) ∈ m.entries := by
  simp [above, and_comm]

/-! ### The values as a multiset -/

section

variable (m : OrderedMap K V)

lemma nodup_keys : (m.entries.map Prod.fst).Nodup :=
  pairwise_map.mpr (m.sorted.imp ne_of_lt)

lemma nodup_entries : m.entries.Nodup :=
  m.sorted.imp fun hlt heq => hlt.ne (congrArg Prod.fst heq)

lemma nodup_cons_erase (k : K) (v : V) : ((k, v) :: (m.erase k).entries).Nodup :=
  nodup_cons.mpr ⟨by simp, nodup_entries _⟩

/-- Setting a key removes its entry and adds one. -/
lemma entries_insert_perm_erase (k : K) (v : V) :
    (m.insert k v).entries.Perm ((k, v) :: (m.erase k).entries) := by
  refine (perm_ext_iff_of_nodup (nodup_entries _) (m.nodup_cons_erase k v)).mpr fun e => ?_
  rw [mem_entries_insert, mem_cons, mem_entries_erase]

end

section

variable (h : ∀ e ∈ m.entries, e.1 ≠ k)

include h

lemma erase_eq_self : m.erase k = m :=
  OrderedMap.ext (filter_eq_self.mpr fun e he => decide_eq_true (h e he))

/-- Setting an absent key adds its entry. -/
lemma entries_insert_perm : (m.insert k v).entries.Perm ((k, v) :: m.entries) := by
  have hperm := m.entries_insert_perm_erase k v
  rwa [erase_eq_self h] at hperm

lemma values_insert_perm : (m.insert k v).values.Perm (v :: m.values) :=
  (entries_insert_perm h).map Prod.snd

end

/-- Removing a key removes its entry. -/
lemma entries_erase_perm (h : (k, v) ∈ m.entries) :
    m.entries.Perm ((k, v) :: (m.erase k).entries) := by
  refine (perm_ext_iff_of_nodup m.nodup_entries (m.nodup_cons_erase k v)).mpr fun e => ?_
  rw [mem_cons, mem_entries_erase]
  constructor
  · intro he
    by_cases hk : e.1 = k
    · exact .inl (eq_of_mem_of_key_eq he h hk)
    · exact .inr ⟨he, hk⟩
  · rintro (rfl | he)
    · exact h
    · exact he.1

/-- Removing a key removes its value. -/
lemma values_erase_perm (h : (k, v) ∈ m.entries) : m.values.Perm (v :: (m.erase k).values) :=
  (entries_erase_perm h).map Prod.snd

/-- Setting several absent keys adds their entries. -/
lemma entries_foldl_insert_perm {l : List (K × V)} (hl : (l.map Prod.fst).Nodup)
    (h : ∀ e ∈ m.entries, e.1 ∉ l.map Prod.fst) :
    (l.foldl (fun m e => m.insert e.1 e.2) m).entries.Perm (l ++ m.entries) := by
  induction l generalizing m with
  | nil => exact .refl _
  | cons a l ih =>
    obtain ⟨ha, hl⟩ := nodup_cons.mp hl
    have hm : ∀ e ∈ m.entries, e.1 ≠ a.1 := by
      intro e he heq
      exact h e he (heq ▸ mem_cons_self)
    have hrest : ∀ e ∈ (m.insert a.1 a.2).entries, e.1 ∉ l.map Prod.fst := by
      intro e he hmem
      rcases mem_entries_insert.mp he with rfl | ⟨he, -⟩
      · exact ha hmem
      · exact h e he (mem_cons_of_mem _ hmem)
    calc (l.foldl (fun m e => m.insert e.1 e.2) (m.insert a.1 a.2)).entries
      _ |>.Perm (l ++ (m.insert a.1 a.2).entries) := ih hl hrest
      _ |>.Perm (l ++ a :: m.entries) := (entries_insert_perm hm).append_left _
      _ |>.Perm (a :: l ++ m.entries) := perm_middle

/-- Removing several keys keeps the other entries. -/
lemma entries_foldl_erase (ks : List K) :
    (ks.foldl (fun m k => m.erase k) m).entries = m.entries.filter (·.1 ∉ ks) := by
  induction ks generalizing m with
  | nil => simp
  | cons k ks ih =>
    rw [foldl_cons, ih]
    change (m.entries.filter (·.1 ≠ k)).filter _ = _
    rw [filter_filter]
    refine filter_congr fun e _ => ?_
    simp [Bool.and_comm]

/-- Setting a key above all others appends its entry. -/
lemma entries_insert_last (h : ∀ e ∈ m.entries, e.1 < k) :
    (m.insert k v).entries = m.entries ++ [(k, v)] := by
  change m.entries.filter (·.1 < k) ++ (k, v) :: m.entries.filter (k < ·.1) = _
  have hlt : m.entries.filter (·.1 < k) = m.entries :=
    filter_eq_self.mpr fun e he => decide_eq_true (h e he)
  have hgt : m.entries.filter (k < ·.1) = [] :=
    filter_eq_nil_iff.mpr fun e he => by simp [(h e he).le]
  rw [hlt, hgt]

/-- Removing the least key leaves the other entries. -/
lemma entries_erase_head {l : List (K × V)} (h : m.entries = (k, v) :: l) :
    (m.erase k).entries = l := by
  have hs := m.sorted
  rw [h] at hs
  change m.entries.filter _ = l
  rw [h, filter_cons_of_neg (by simp), filter_eq_self]
  intro e he
  exact decide_eq_true (rel_of_pairwise_cons hs he).ne'

/-! ### Values and updates -/

@[simp] lemma get?_empty : (empty : OrderedMap K V).get? k = none := rfl

@[simp] lemma get?_insert (k' : K) :
    (m.insert k v).get? k' = if k' = k then some v else m.get? k' := by
  ext w
  rw [get?_eq_some, mem_entries_insert]
  split
  · rename_i h
    simp [h, eq_comm]
  · rename_i h
    simp [h, get?_eq_some]

@[simp] lemma get?_erase (k' : K) : (m.erase k).get? k' = if k' = k then none else m.get? k' := by
  ext w
  rw [get?_eq_some, mem_entries_erase]
  split
  · rename_i h
    simp [h]
  · rename_i h
    simp [h, get?_eq_some]

/-- The map with every value replaced by a function of the key and the value. -/
def mapValues {W : Type} (m : OrderedMap K V) (f : K → V → W) : OrderedMap K W where
  entries := m.entries.map fun e => (e.1, f e.1 e.2)
  sorted := pairwise_map.mpr m.sorted

@[simp] lemma get?_mapValues {W : Type} (f : K → V → W) :
    (m.mapValues f).get? k = (m.get? k).map (f k) := by
  ext w
  rw [get?_eq_some, Option.map_eq_some_iff]
  constructor
  · intro h
    obtain ⟨e, he, heq⟩ := mem_map.mp h
    cases heq
    exact ⟨e.2, get?_eq_some.mpr he, rfl⟩
  · rintro ⟨v, hv, rfl⟩
    exact mem_map.mpr ⟨(k, v), get?_eq_some.mp hv, rfl⟩

/-- The map with the entries that pass the test. -/
def filter (m : OrderedMap K V) (p : K → V → Bool) : OrderedMap K V where
  entries := m.entries.filter fun e => p e.1 e.2
  sorted := m.sorted.filter _

lemma get?_filter {p : K → V → Bool} (h : (m.filter p).get? k = some v) : m.get? k = some v := by
  rw [get?_eq_some] at h ⊢
  exact mem_of_mem_filter h

end OrderedMap

end Framework
