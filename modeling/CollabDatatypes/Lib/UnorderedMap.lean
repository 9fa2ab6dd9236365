import Mathlib.Data.List.AList
import Mathlib.Data.List.Induction
import Mathlib.Data.List.Perm.Subperm
import Mathlib.Data.Prod.Basic

/-! # Maps with unique keys and a fixed order of iteration

A map is Mathlib's `AList`, a list of entries with distinct keys; the order of the list is the
order in which a loop visits the entries. What is added here is what a program does with such a map
besides `lookup` and `insert`: it rewrites elements in place (`mapVal`, `modify`), runs a loop with
a variable over them (`loop`), walks the entries that satisfy a test (`keysWhere`), adds up over them
(`sumWhere`), and compares two maps entry by entry (`equal`). Everything is characterized by `lookup`,
so that the order of the entries never matters to a caller. -/

namespace CollabDatatypes.Lib

/-- A finite map with unique keys. -/
abbrev UnorderedMap (K V : Type*) := AList fun _ : K => V

namespace UnorderedMap

variable {K V W σ : Type*}

/-! ### Rewriting in place -/

/-- Every element rewritten in place; keys and order stay. -/
def mapVal (f : K → V → W) (m : UnorderedMap K V) : UnorderedMap K W :=
  ⟨m.entries.map fun e => ⟨e.1, f e.1 e.2⟩, m.nodupKeys.map₂ f m.entries⟩

theorem entries_mapVal (f : K → V → W) (m : UnorderedMap K V) :
    (m.mapVal f).entries = m.entries.map fun e => ⟨e.1, f e.1 e.2⟩ := rfl

theorem mapVal_mapVal {X : Type*} {g : K → W → X} {f : K → V → W} {h : K → V → X}
    (e : ∀ k v, g k (f k v) = h k v) (m : UnorderedMap K V) : (m.mapVal f).mapVal g = m.mapVal h := by
  refine AList.ext ?_
  simp only [entries_mapVal, List.map_map, Function.comp_def, e]

/-- One step of a loop over the entries after another, each element rewritten in place; `n` is the
variable of the loop. -/
def loopList (body : σ → V → σ × V) : σ → List (Σ _ : K, V) → σ × List (Σ _ : K, V)
  | n, [] => (n, [])
  | n, e :: l =>
    let r := body n e.2
    let r' := loopList body r.1 l
    (r'.1, ⟨e.1, r.2⟩ :: r'.2)

theorem keys_loopList (body : σ → V → σ × V) :
    ∀ (l : List (Σ _ : K, V)) (n : σ), (loopList body n l).2.keys = l.keys
  | [], _ => rfl
  | e :: l, n => by
    simp only [loopList, List.keys_cons, keys_loopList body l]

/-- The loop over a map. -/
def loop (body : σ → V → σ × V) (n : σ) (m : UnorderedMap K V) : σ × UnorderedMap K V :=
  let r := loopList body n m.entries
  (r.1, ⟨r.2, by
    have h := m.nodupKeys
    unfold List.NodupKeys at h ⊢
    rw [keys_loopList]
    exact h⟩)

theorem loopList_snd {body : σ → V → σ × V} {g : V → V} (h : ∀ n v, (body n v).2 = g v) :
    ∀ (l : List (Σ _ : K, V)) (n : σ), (loopList body n l).2 = l.map fun e => ⟨e.1, g e.2⟩
  | [], _ => rfl
  | e :: l, n => by
    simp only [loopList, List.map_cons, h, loopList_snd h l]

/-- **A loop whose writes do not depend on its variable** rewrites every element. -/
theorem loop_snd {body : σ → V → σ × V} {g : V → V} (h : ∀ n v, (body n v).2 = g v) (n : σ)
    (m : UnorderedMap K V) : (m.loop body n).2 = m.mapVal fun _ v => g v :=
  AList.ext (loopList_snd h m.entries n)

theorem loopList_map {body : σ → V → σ × V} {body' : σ → W → σ × W} {g : V → W}
    (h : ∀ n v, body' n (g v) = ((body n v).1, g (body n v).2)) :
    ∀ (l : List (Σ _ : K, V)) (n : σ),
      loopList body' n (l.map fun e => ⟨e.1, g e.2⟩) =
        ((loopList body n l).1, (loopList body n l).2.map fun e => ⟨e.1, g e.2⟩)
  | [], _ => rfl
  | e :: l, n => by
    simp only [List.map_cons, loopList, h, loopList_map h l]

theorem loop_mapVal {body : σ → V → σ × V} {body' : σ → W → σ × W} {g : V → W}
    (h : ∀ n v, body' n (g v) = ((body n v).1, g (body n v).2)) (n : σ) (m : UnorderedMap K V) :
    (m.mapVal fun _ => g).loop body' n =
      ((m.loop body n).1, (m.loop body n).2.mapVal fun _ => g) := by
  have hl := loopList_map h m.entries n
  refine Prod.ext ?_ (AList.ext ?_)
  · show (loopList body' n _).1 = _
    rw [entries_mapVal, hl]; rfl
  · show (loopList body' n _).2 = _
    rw [entries_mapVal, hl]; rfl

/-- The number of entries whose element satisfies `p`. -/
def countWhere (p : V → Bool) (m : UnorderedMap K V) : ℕ := m.entries.countP fun e => p e.2

theorem loopList_count {body : σ → V → σ × V} {p : V → Bool} {R : ℕ → σ → Prop}
    (h : ∀ c n v, R (c + (p v).toNat) n → R (c + (p (body n v).2).toNat) (body n v).1) :
    ∀ (l : List (Σ _ : K, V)) (n : σ) (c : ℕ), R (c + l.countP fun e => p e.2) n →
      R (c + (loopList body n l).2.countP fun e => p e.2) (loopList body n l).1
  | [], _, _, hR => hR
  | e :: l, n, c, hR => by
    have hcons : ∀ (e : Σ _ : K, V) (l : List (Σ _ : K, V)),
        (e :: l).countP (fun e => p e.2) = l.countP (fun e => p e.2) + (p e.2).toNat := by
      intro e l
      rw [List.countP_cons]
      cases p e.2 <;> rfl
    rw [hcons, ← Nat.add_assoc] at hR
    have h1 := h _ _ _ hR
    rw [Nat.add_right_comm] at h1
    have h2 := loopList_count h l _ _ h1
    simp only [loopList, hcons]
    rwa [Nat.add_right_comm, Nat.add_assoc] at h2

/-- **A relation between the count and the variable of the loop**, kept by the body at every
element, is kept by the loop. -/
theorem loop_count {body : σ → V → σ × V} {p : V → Bool} {R : ℕ → σ → Prop}
    (h : ∀ c n v, R (c + (p v).toNat) n → R (c + (p (body n v).2).toNat) (body n v).1)
    {n : σ} {m : UnorderedMap K V} (hR : R (m.countWhere p) n) :
    R ((m.loop body n).2.countWhere p) (m.loop body n).1 := by
  have h0 := loopList_count h m.entries n 0 (by rw [Nat.zero_add]; exact hR)
  rwa [Nat.zero_add] at h0

/-! ### The entries that satisfy a test -/

/-- The keys whose element satisfies `p`, in the order of iteration. -/
def keysWhere (p : V → Bool) (m : UnorderedMap K V) : List K :=
  (m.entries.filter fun e => p e.2).keys

theorem length_keysWhere (p : V → Bool) (m : UnorderedMap K V) :
    (m.keysWhere p).length = m.countWhere p := by
  rw [keysWhere, List.keys, List.length_map, countWhere, List.countP_eq_length_filter]

theorem nodup_keysWhere (p : V → Bool) (m : UnorderedMap K V) : (m.keysWhere p).Nodup :=
  m.nodupKeys.sublist List.filter_sublist

theorem length_entries (m : UnorderedMap K V) :
    m.entries.length = m.countWhere fun _ => true := by
  simp [countWhere]

theorem countWhere_eq_length {p : V → Bool} {m : UnorderedMap K V} :
    m.countWhere p = (m.entries.filter fun e => p e.2).length := List.countP_eq_length_filter ..

theorem countWhere_le {p : V → Bool} {m : UnorderedMap K V} :
    m.countWhere p ≤ m.entries.length := List.countP_le_length ..

theorem keysWhere_mapVal {p : W → Bool} {q : V → Bool} {f : K → V → W} (h : ∀ k v, p (f k v) = q v)
    (m : UnorderedMap K V) : (m.mapVal f).keysWhere p = m.keysWhere q := by
  unfold keysWhere
  rw [entries_mapVal, List.filter_map]
  simp only [List.keys, List.map_map, Function.comp_def, h]

theorem countWhere_congr {p : V → Bool} {q : W → Bool} {m : UnorderedMap K V}
    {m' : UnorderedMap K W} (h : ∀ k, k ∈ m.keysWhere p ↔ k ∈ m'.keysWhere q) :
    m.countWhere p = m'.countWhere q := by
  rw [← length_keysWhere, ← length_keysWhere]
  exact ((List.perm_ext_iff_of_nodup (nodup_keysWhere p m) (nodup_keysWhere q m')).mpr h).length_eq

theorem countWhere_succ {p : V → Bool} {q : W → Bool} {m : UnorderedMap K V}
    {m' : UnorderedMap K W} {k : K} (hk : k ∉ m.keysWhere p)
    (h : ∀ k', k' ∈ m'.keysWhere q ↔ k' = k ∨ k' ∈ m.keysWhere p) :
    m'.countWhere q = m.countWhere p + 1 := by
  rw [← length_keysWhere, ← length_keysWhere, ← List.length_cons (a := k)]
  refine ((List.perm_ext_iff_of_nodup (nodup_keysWhere q m')
    (List.nodup_cons.mpr ⟨hk, nodup_keysWhere p m⟩)).mpr fun k' => ?_).length_eq
  rw [h, List.mem_cons]

/-- The loop that adds up `f` over the entries whose element satisfies `p`. -/
def sumWhere (p : V → Bool) (f : V → ℕ) (m : UnorderedMap K V) : ℕ :=
  (m.entries.filter fun e => p e.2).foldl (fun total e => total + f e.2) 0

/-- The tested keys, each paired with the items of a list that its element has. -/
def pairsWhere (p : V → Bool) (items : V → List W) (m : UnorderedMap K V) : List (K × W) :=
  (m.entries.filter fun e => p e.2).flatMap fun e => (items e.2).map (Prod.mk e.1)

/-- **A loop that adds up lengths** counts the pairs of a key and an item. -/
theorem length_pairsWhere (p : V → Bool) (items : V → List W) (m : UnorderedMap K V) :
    (m.pairsWhere p items).length = m.sumWhere p fun v => (items v).length := by
  unfold pairsWhere sumWhere
  induction (m.entries.filter fun e => p e.2) using List.reverseRecOn with
  | nil => rfl
  | append_singleton l e ih =>
    rw [List.flatMap_append, List.length_append, ih, List.foldl_append]
    simp

theorem nodup_pairsWhere (p : V → Bool) {items : V → List W} (h : ∀ v, (items v).Nodup)
    (m : UnorderedMap K V) : (m.pairsWhere p items).Nodup := by
  refine List.nodup_flatMap.mpr ⟨fun e _ => (h e.2).map (Prod.mk_right_injective e.1), ?_⟩
  refine (m.nodupKeys.pairwise_ne.sublist List.filter_sublist).imp fun {e e'} hne x hx hx' => hne ?_
  obtain ⟨_, -, rfl⟩ := List.mem_map.mp hx
  obtain ⟨_, -, he⟩ := List.mem_map.mp hx'
  exact (congrArg Prod.fst he).symm

/-! ### Iterators

An iterator is the list of the entries from its position on; there is none at `end()`. -/

/-- The loop `while (it != end() && p(it->second)) ++it`. -/
def skip (p : V → Bool) : List (Σ _ : K, V) → List (Σ _ : K, V)
  | [] => []
  | e :: l => if p e.2 then skip p l else e :: l

/-- The keys that the loop `for (; it != end(); it = next(it))` visits; `none` if it has not ended
after `n` tests. -/
def walk (next : List (Σ _ : K, V) → List (Σ _ : K, V)) : ℕ → List (Σ _ : K, V) → Option (List K)
  | 0, _ => none
  | _ + 1, [] => some []
  | n + 1, e :: l => (walk next n (next (e :: l))).map (e.1 :: ·)

/-- **A walk that skips the entries with `p`** ends, and visits the others in order. -/
theorem walk_skip (p : V → Bool) : ∀ (l : List (Σ _ : K, V)) (n : ℕ), l.length < n →
    walk (fun it => skip p it.tail) n (skip p l) = some (l.filter fun e => !p e.2).keys
  | [], n + 1, _ => rfl
  | e :: l, n + 1, h => by
    rw [List.length_cons] at h
    cases hp : p e.2 with
    | true =>
      rw [skip, if_pos hp, List.filter_cons_of_neg (by simp [hp])]
      exact walk_skip p l (n + 1) (Nat.lt_of_succ_lt h)
    | false =>
      rw [skip, if_neg (by simp [hp]), List.filter_cons_of_pos (by simp [hp]), walk]
      show (walk _ n (skip p l)).map _ = _
      rw [walk_skip p l n (Nat.lt_of_succ_lt_succ h)]
      rfl

/-! ### What `lookup` sees -/

variable [DecidableEq K]

/-- The position of `k`, `[]` if it has no entry. -/
def position (k : K) (m : UnorderedMap K V) : List (Σ _ : K, V) :=
  m.entries.dropWhile fun e => e.1 ≠ k

theorem head?_position (k : K) (m : UnorderedMap K V) :
    (m.position k).head?.map Sigma.snd = m.lookup k := by
  show ((m.entries.dropWhile fun e => e.1 ≠ k).head?.map Sigma.snd) = m.entries.dlookup k
  induction m.entries with
  | nil => rfl
  | cons e l ih =>
    obtain ⟨k', v⟩ := e
    by_cases h : k' = k
    · subst h
      rw [List.dlookup_cons_eq]
      simp
    · rw [List.dlookup_cons_ne _ _ (Ne.symm h), List.dropWhile_cons_of_pos (by simpa using h)]
      exact ih

@[simp] theorem lookup_mapVal (f : K → V → W) (m : UnorderedMap K V) (k : K) :
    (m.mapVal f).lookup k = (m.lookup k).map (f k) :=
  List.dlookup_map₂ k

/-- The element of `k` rewritten in place, through a reference to it. -/
def modify (k : K) (f : V → V) (m : UnorderedMap K V) : UnorderedMap K V :=
  m.mapVal fun k' v => if k' = k then f v else v

theorem lookup_modify (k k' : K) (f : V → V) (m : UnorderedMap K V) :
    (m.modify k f).lookup k' = if k' = k then (m.lookup k').map f else m.lookup k' := by
  unfold modify
  rw [lookup_mapVal]
  by_cases h : k' = k
  · simp only [h, if_true]
  · simp only [h, if_false, Option.map_id']

theorem lookup_insert_eq (k k' : K) (v : V) (m : UnorderedMap K V) :
    (AList.insert k v m).lookup k' = if k' = k then some v else m.lookup k' := by
  by_cases h : k' = k
  · subst h
    rw [if_pos rfl, AList.lookup_insert]
  · rw [if_neg h, AList.lookup_insert_ne h]

theorem mapVal_insert {g : K → V → W} {k : K} {m : UnorderedMap K V} (hk : m.lookup k = none)
    (v : V) : (mapVal g (AList.insert k v m)) = AList.insert k (g k v) (m.mapVal g) := by
  have h' : k ∉ m.mapVal g := AList.lookup_eq_none.mp (by rw [lookup_mapVal, hk]; rfl)
  refine AList.ext ?_
  rw [entries_mapVal, AList.entries_insert_of_notMem (AList.lookup_eq_none.mp hk),
    AList.entries_insert_of_notMem h', List.map_cons, entries_mapVal]

theorem mapVal_modify {g : V → W} {f : V → V} {u : W → W} (h : ∀ v, g (f v) = u (g v)) (k : K)
    (m : UnorderedMap K V) :
    (m.modify k f).mapVal (fun _ => g) = modify k u (m.mapVal fun _ => g) := by
  unfold modify
  rw [mapVal_mapVal (h := fun k' v => if k' = k then u (g v) else g v),
    mapVal_mapVal (h := fun k' v => if k' = k then u (g v) else g v)]
  · intro k' v
    rfl
  · intro k' v
    split_ifs
    · exact h v
    · rfl

theorem mem_keysWhere {p : V → Bool} {m : UnorderedMap K V} {k : K} :
    k ∈ m.keysWhere p ↔ ∃ v, m.lookup k = some v ∧ p v = true := by
  simp only [keysWhere, List.mem_keys, List.mem_filter]
  constructor
  · rintro ⟨v, hv, hp⟩
    exact ⟨v, AList.mem_lookup_iff.mpr hv, hp⟩
  · rintro ⟨v, hv, hp⟩
    exact ⟨v, AList.mem_lookup_iff.mp hv, hp⟩

theorem mem_pairsWhere {p : V → Bool} {items : V → List W} {m : UnorderedMap K V} {k : K} {x : W} :
    (k, x) ∈ m.pairsWhere p items ↔ ∃ v, m.lookup k = some v ∧ p v = true ∧ x ∈ items v := by
  simp only [pairsWhere, List.mem_flatMap, List.mem_filter, List.mem_map]
  constructor
  · rintro ⟨⟨k', v⟩, ⟨hv, hp⟩, x', hx, he⟩
    obtain ⟨rfl, rfl⟩ := Prod.mk.inj he
    exact ⟨v, AList.mem_lookup_iff.mpr hv, hp, hx⟩
  · rintro ⟨v, hv, hp, hx⟩
    exact ⟨⟨k, v⟩, ⟨AList.mem_lookup_iff.mp hv, hp⟩, x, hx, rfl⟩

theorem sumWhere_congr {p : V → Bool} {f g : V → ℕ} {m : UnorderedMap K V}
    (h : ∀ k v, m.lookup k = some v → f v = g v) : m.sumWhere p f = m.sumWhere p g := by
  refine List.foldl_ext _ _ 0 fun total e he => ?_
  rw [h e.1 e.2 (AList.mem_lookup_iff.mpr (List.mem_of_mem_filter he))]

/-! ### Comparison -/

/-- The comparison of two maps: as many entries, and every entry of the one has an equal element
under the same key in the other. -/
def equal (eq : V → V → Bool) (m m' : UnorderedMap K V) : Bool :=
  m.entries.length == m'.entries.length &&
    m.entries.all fun e =>
      match m'.lookup e.1 with
      | none => false
      | some v => eq e.2 v

theorem equal_iff {eq : V → V → Bool} {m m' : UnorderedMap K V} :
    m.equal eq m' = true ↔
      ∀ k, Option.Rel (fun v v' => eq v v' = true) (m.lookup k) (m'.lookup k) := by
  have hall : (m.entries.all fun e => match m'.lookup e.1 with
      | none => false
      | some v => eq e.2 v) = true ↔
      ∀ k v, m.lookup k = some v → ∃ v', m'.lookup k = some v' ∧ eq v v' = true := by
    rw [List.all_eq_true]
    constructor
    · intro h k v hv
      have := h ⟨k, v⟩ (AList.mem_lookup_iff.mp hv)
      cases hv' : m'.lookup k with
      | none => simp [hv'] at this
      | some v' => exact ⟨v', rfl, by simpa [hv'] using this⟩
    · rintro h ⟨k, v⟩ hv
      obtain ⟨v', hv', he⟩ := h k v (AList.mem_lookup_iff.mpr hv)
      simp only [hv', he]
  unfold equal
  rw [Bool.and_eq_true, hall, beq_iff_eq]
  constructor
  · rintro ⟨hlen, h⟩ k
    cases hv : m.lookup k with
    | some v =>
      obtain ⟨v', hv', he⟩ := h k v hv
      rw [hv']
      exact Option.Rel.some he
    | none =>
      have hsub : m.keys ⊆ m'.keys := by
        intro a ha
        obtain ⟨v, hv⟩ := Option.isSome_iff_exists.mp (AList.lookup_isSome.mpr ha)
        obtain ⟨v', hv', -⟩ := h a v hv
        exact AList.lookup_isSome.mp (by rw [hv']; rfl)
      have hperm : m.keys.Perm m'.keys :=
        (List.subperm_of_subset m.keys_nodup hsub).perm_of_length_le (by
          simp only [AList.keys, List.keys, List.length_map, hlen, le_refl])
      rw [AList.lookup_eq_none.mpr fun hk => AList.lookup_eq_none.mp hv (hperm.mem_iff.mpr hk)]
      exact Option.Rel.none
  · intro h
    refine ⟨?_, fun k v hv => ?_⟩
    · rw [length_entries, length_entries]
      refine countWhere_congr fun k => ?_
      rw [mem_keysWhere, mem_keysWhere]
      have hk := h k
      cases h1 : m.lookup k <;> cases h2 : m'.lookup k <;> simp_all
    · have hk := h k
      rw [hv] at hk
      cases hv' : m'.lookup k with
      | none => rw [hv'] at hk; cases hk
      | some v' => rw [hv'] at hk; cases hk with | some he => exact ⟨v', rfl, he⟩

end UnorderedMap

end CollabDatatypes.Lib
