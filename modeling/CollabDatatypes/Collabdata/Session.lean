import CollabDatatypes.Lib.Standing
import CollabDatatypes.Collabdata.CollabData
import Mathlib.Data.Set.Card

/-! # Who hears of an operation

In a session of calls on one data object the vector of observers holds, without repetition, those
added since the last clear, and the broadcaster is the one set last (`Follows`). So every
notification reaches exactly the observers that stand, once each (`session_notifies`), and what an
observer hears of does not depend on the other observers (`observers_apart`). -/

namespace CollabDatatypes.Collabdata.CollabData

open CollabDatatypes.Lib

variable {Observer Operation : Type*}

/-- `x` was added, and the observers were not cleared since. -/
def Registered (p : List (Call Observer Operation)) (x : Observer) : Prop :=
  Standing (· = .addOperationObserver x) (· = .clearOperationObservers) p

/-- `x` was set as the broadcaster, and neither removed nor replaced since. -/
def Broadcasts (p : List (Call Observer Operation)) (x : Observer) : Prop :=
  Standing (· = .setOperationBroadcaster x)
    (fun c => c = .removeOperationBroadcaster ∨ ∃ y, c = .setOperationBroadcaster y) p

theorem registered_concat {p : List (Call Observer Operation)} {c : Call Observer Operation}
    {x : Observer} : Registered (p ++ [c]) x ↔
      c = .addOperationObserver x ∨ Registered p x ∧ c ≠ .clearOperationObservers :=
  standing_concat

theorem broadcasts_concat {p : List (Call Observer Operation)} {c : Call Observer Operation}
    {x : Observer} : Broadcasts (p ++ [c]) x ↔ c = .setOperationBroadcaster x ∨
      Broadcasts p x ∧ ¬ (c = .removeOperationBroadcaster ∨ ∃ y, c = .setOperationBroadcaster y) :=
  standing_concat

/-- The data object after the calls `p`. -/
structure Follows (p : List (Call Observer Operation)) (data : CollabData Observer) : Prop where
  nodup : data.operationObservers.Nodup
  registered : ∀ x, x ∈ data.operationObservers ↔ Registered p x
  broadcasts : ∀ x, data.broadcaster = some x ↔ Broadcasts p x

variable [DecidableEq Observer]

/-! ### One call -/

theorem addOperationObserver_of_mem {data : CollabData Observer} {x : Observer}
    (h : x ∈ data.operationObservers) : data.addOperationObserver x = (data, false) := by
  have hany : (data.operationObservers.any fun obs => obs = x) = true := by simpa using h
  unfold addOperationObserver
  rw [if_pos hany]

theorem addOperationObserver_of_notMem {data : CollabData Observer} {x : Observer}
    (h : x ∉ data.operationObservers) : data.addOperationObserver x =
      ({ data with operationObservers := data.operationObservers ++ [x] }, true) := by
  have hany : ¬ (data.operationObservers.any fun obs => obs = x) = true := by simpa using h
  unfold addOperationObserver
  rw [if_neg hany]

/-- **Adding an observer** that is there already changes nothing, and returns `false`. -/
theorem mem_addOperationObserver {data : CollabData Observer} {x y : Observer} :
    y ∈ (data.addOperationObserver x).1.operationObservers ↔
      x = y ∨ y ∈ data.operationObservers := by
  by_cases h : x ∈ data.operationObservers
  · rw [addOperationObserver_of_mem h]
    refine ⟨Or.inr, fun hy => hy.elim (fun he => he ▸ h) id⟩
  · rw [addOperationObserver_of_notMem h]
    simp [or_comm, eq_comm]

theorem addOperationObserver_broadcaster {data : CollabData Observer} {x : Observer} :
    (data.addOperationObserver x).1.broadcaster = data.broadcaster := by
  by_cases h : x ∈ data.operationObservers
  · rw [addOperationObserver_of_mem h]
  · rw [addOperationObserver_of_notMem h]

theorem addOperationObserver_nodup {data : CollabData Observer} {x : Observer}
    (h : data.operationObservers.Nodup) :
    (data.addOperationObserver x).1.operationObservers.Nodup := by
  by_cases hx : x ∈ data.operationObservers
  · rwa [addOperationObserver_of_mem hx]
  · rw [addOperationObserver_of_notMem hx]
    refine List.nodup_append.mpr ⟨h, List.nodup_singleton x, fun a ha b hb => ?_⟩
    obtain rfl := List.mem_singleton.mp hb
    exact fun he => hx (he ▸ ha)

variable {ndebug : Bool} {getType : Operation → UInt32} {p : List (Call Observer Operation)}
  {c : Call Observer Operation} {data data' : CollabData Observer}
  {log sent : List (Observer × Operation)}

theorem follows_call (h : Follows p data) (hc : data.call ndebug getType c = some (data', sent)) :
    Follows (p ++ [c]) data' := by
  obtain ⟨hn, hr, hb⟩ := h
  cases c with
  | notifyOperationObservers op =>
    obtain ⟨_, -, he⟩ := Option.map_eq_some_iff.mp hc
    obtain ⟨rfl, -⟩ := Prod.mk.inj he
    exact ⟨hn, fun x => by simp [registered_concat, hr x], fun x => by simp [broadcasts_concat, hb x]⟩
  | addOperationObserver y =>
    obtain ⟨rfl, -⟩ := Prod.mk.inj (Option.some.inj hc)
    refine ⟨addOperationObserver_nodup hn, fun x => ?_, fun x => ?_⟩
    · rw [mem_addOperationObserver]
      simp [registered_concat, hr x]
    · rw [addOperationObserver_broadcaster]
      simp [broadcasts_concat, hb x]
  | clearOperationObservers =>
    obtain ⟨rfl, -⟩ := Prod.mk.inj (Option.some.inj hc)
    refine ⟨List.nodup_nil, fun x => ?_, fun x => ?_⟩
    · simp [registered_concat, clearOperationObservers]
    · simp [broadcasts_concat, clearOperationObservers, hb x]
  | notifyOperationBroadcaster op =>
    obtain ⟨rfl, -⟩ := Prod.mk.inj (Option.some.inj hc)
    exact ⟨hn, fun x => by simp [registered_concat, hr x], fun x => by simp [broadcasts_concat, hb x]⟩
  | setOperationBroadcaster y =>
    obtain ⟨rfl, -⟩ := Prod.mk.inj (Option.some.inj hc)
    refine ⟨hn, fun x => ?_, fun x => ?_⟩
    · simp [registered_concat, setOperationBroadcaster, hr x]
    · simp [broadcasts_concat, setOperationBroadcaster]
  | removeOperationBroadcaster =>
    obtain ⟨rfl, -⟩ := Prod.mk.inj (Option.some.inj hc)
    refine ⟨hn, fun x => ?_, fun x => ?_⟩
    · simp [registered_concat, removeOperationBroadcaster, hr x]
    · simp [broadcasts_concat, removeOperationBroadcaster]

/-- The calls of `onOperation` that one call makes: each observer that stands, once. -/
theorem sent_call (h : Follows p data) (hc : data.call ndebug getType c = some (data', sent)) :
    sent.Nodup ∧ ∀ x op, (x, op) ∈ sent ↔ c = .notifyOperationObservers op ∧ Registered p x ∨
      c = .notifyOperationBroadcaster op ∧ Broadcasts p x := by
  cases c with
  | notifyOperationObservers op =>
    obtain ⟨sent', hs, he⟩ := Option.map_eq_some_iff.mp hc
    obtain ⟨-, rfl⟩ := Prod.mk.inj he
    unfold notifyOperationObservers at hs
    split at hs
    · obtain rfl := Option.some.inj hs
      refine ⟨h.nodup.map fun x y hxy => (Prod.mk.inj hxy).1, fun x op' => ?_⟩
      simp [← h.registered x, and_comm]
    · cases hs
  | notifyOperationBroadcaster op =>
    obtain ⟨-, rfl⟩ := Prod.mk.inj (Option.some.inj hc)
    unfold notifyOperationBroadcaster
    cases hb : data.broadcaster with
    | none =>
      refine ⟨List.nodup_nil, fun x op' => ?_⟩
      simp [← h.broadcasts x, hb]
    | some y =>
      refine ⟨List.nodup_singleton _, fun x op' => ?_⟩
      simp [← h.broadcasts x, hb, eq_comm, and_comm]
  | addOperationObserver | clearOperationObservers | setOperationBroadcaster
  | removeOperationBroadcaster =>
    obtain ⟨-, rfl⟩ := Prod.mk.inj (Option.some.inj hc)
    exact ⟨List.nodup_nil, fun x op' => by simp⟩

theorem isSome_call : (data.call ndebug getType c).isSome = true ↔
    (ndebug = false → ∀ op, c = .notifyOperationObservers op → getType op ≠ 0) := by
  cases c with
  | notifyOperationObservers op =>
    unfold call notifyOperationObservers
    cases ndebug <;> by_cases h : getType op ≠ 0 <;> simp [h]
  | addOperationObserver | clearOperationObservers | notifyOperationBroadcaster
  | setOperationBroadcaster | removeOperationBroadcaster => simp [call]

/-! ### Sessions -/

theorem session_concat {data' : CollabData Observer} {log' : List (Observer × Operation)}
    (h : (session Observer ndebug getType).run (p ++ [c]) = some (data', log')) :
    ∃ data log sent, (session Observer ndebug getType).run p = some (data, log) ∧
      data.call ndebug getType c = some (data', sent) ∧ log' = log ++ sent := by
  rw [Machine.run_concat] at h
  obtain ⟨⟨data, log⟩, hp, hs⟩ := Option.bind_eq_some_iff.mp h
  obtain ⟨⟨data'', sent⟩, hc, he⟩ := Option.map_eq_some_iff.mp hs
  obtain ⟨rfl, rfl⟩ := Prod.mk.inj he
  exact ⟨data, log, sent, hp, hc, rfl⟩

theorem follows_session :
    ∀ {p : List (Call Observer Operation)} {data : CollabData Observer}
      {log : List (Observer × Operation)},
      (session Observer ndebug getType).run p = some (data, log) → Follows p data := by
  intro p
  induction p using List.reverseRecOn with
  | nil =>
    intro data log h
    obtain ⟨rfl, -⟩ := Prod.mk.inj (Option.some.inj h)
    refine ⟨List.nodup_nil, fun x => ?_, fun x => ?_⟩
    · exact iff_of_false List.not_mem_nil not_standing_nil
    · exact iff_of_false (Option.some_ne_none x).symm not_standing_nil
  | append_singleton p c ih =>
    intro data' log' h
    obtain ⟨data, log, sent, hp, hc, -⟩ := session_concat h
    exact follows_call (ih hp) hc

/-- **A session fails** exactly at an operation without a type that goes to the observers, and only with
assertions. -/
theorem isSome_session : ((session Observer ndebug getType).run p).isSome = true ↔
    (ndebug = false → ∀ op, .notifyOperationObservers op ∈ p → getType op ≠ 0) := by
  induction p using List.reverseRecOn with
  | nil => simp [session]
  | append_singleton p c ih =>
    rw [Machine.run_concat]
    cases hp : (session Observer ndebug getType).run p with
    | none =>
      rw [hp] at ih
      have hno : ¬ (ndebug = false → ∀ op, Call.notifyOperationObservers op ∈ p → getType op ≠ 0) :=
        fun h => by simpa using ih.mpr h
      refine iff_of_false (by simp [session]) fun h => hno fun hn op hop => ?_
      exact h hn op (List.mem_append_left _ hop)
    | some s =>
      rw [hp] at ih
      have hyes := ih.mp rfl
      have hstep : ((session Observer ndebug getType).step (some s) c).isSome =
          (s.1.call ndebug getType c).isSome := by simp [session]
      rw [hstep, isSome_call]
      refine ⟨fun h hn op hop => ?_, fun h hn op hc => h hn op (by simp [hc])⟩
      rcases List.mem_append.mp hop with hop | hop
      · exact hyes hn op hop
      · exact h hn op (List.mem_singleton.mp hop).symm

/-- **Notifications reach whom they should.** With assertions, a session runs to its end exactly when
every operation handed to `notifyOperationObservers` has a type; without, it always does.
`sizeOperationObserver`, `hasBroadcaster` and the result of `addOperationObserver` are then about the
observers that stand; and the next call hands its operation to exactly these, or to the broadcaster,
once each. -/
theorem session_notifies (ndebug : Bool) (getType : Operation → UInt32)
    (p : List (Call Observer Operation)) :
    (((session Observer ndebug getType).run p).isSome = true ↔
      (ndebug = false → ∀ op, .notifyOperationObservers op ∈ p → getType op ≠ 0)) ∧
    ∀ data log, (session Observer ndebug getType).run p = some (data, log) →
      (data.sizeOperationObserver : ℕ∞) = {x | Registered p x}.encard ∧
      (data.hasBroadcaster = true ↔ ∃ x, Broadcasts p x) ∧
      (∀ x, (data.addOperationObserver x).2 = true ↔ ¬ Registered p x) ∧
      ∀ c data' log', (session Observer ndebug getType).run (p ++ [c]) = some (data', log') →
        ∃ sent, log' = log ++ sent ∧ sent.Nodup ∧
          ∀ x op, (x, op) ∈ sent ↔ c = .notifyOperationObservers op ∧ Registered p x ∨
            c = .notifyOperationBroadcaster op ∧ Broadcasts p x := by
  refine ⟨isSome_session, fun data log hp => ?_⟩
  have hf := follows_session hp
  refine ⟨?_, ?_, fun x => ?_, fun c data' log' hc => ?_⟩
  · have hset : {x | Registered p x} = ↑data.operationObservers.toFinset := by
      ext x
      simp [← hf.registered x]
    rw [hset, Set.encard_coe_eq_coe_finsetCard, List.toFinset_card_of_nodup hf.nodup]
    rfl
  · simp only [← hf.broadcasts, hasBroadcaster, Option.isSome_iff_exists]
  · rw [← hf.registered x]
    by_cases hx : x ∈ data.operationObservers
    · simp [addOperationObserver_of_mem hx, hx]
    · simp [addOperationObserver_of_notMem hx, hx]
  · obtain ⟨data₀, log₀, sent, hp', hcall, rfl⟩ := session_concat hc
    obtain ⟨rfl, rfl⟩ := Prod.mk.inj (Option.some.inj (hp'.symm.trans hp))
    exact ⟨sent, rfl, sent_call hf hcall⟩

/-! ### One observer among others -/

/-- What of a call concerns `x`: other observers come and go, and for `x` another broadcaster is as
good as none. -/
def concerns (x : Observer) : Call Observer Operation → Option (Call Observer Operation)
  | .addOperationObserver y => if y = x then some (.addOperationObserver y) else none
  | .setOperationBroadcaster y =>
    some (if y = x then .setOperationBroadcaster y else .removeOperationBroadcaster)
  | c => some c

/-- The operations that `x` received, in this order. -/
def received (x : Observer) (log : List (Observer × Operation)) : List Operation :=
  (log.filter fun n => n.1 = x).map Prod.snd

/-- One observer alone: whether it is registered, whether it is the broadcaster, and what it received. -/
@[ext]
structure Listener (Operation : Type*) where
  registered : Bool
  broadcasts : Bool
  received : List Operation

/-- What `x` sees of a session. -/
def Listener.machine (x : Observer) : Machine (Listener Operation) (Call Observer Operation) where
  init := ⟨false, false, []⟩
  step s
    | .notifyOperationObservers op =>
      { s with received := s.received ++ if s.registered then [op] else [] }
    | .addOperationObserver y => { s with registered := decide (y = x) || s.registered }
    | .clearOperationObservers => { s with registered := false }
    | .notifyOperationBroadcaster op =>
      { s with received := s.received ++ if s.broadcasts then [op] else [] }
    | .setOperationBroadcaster y => { s with broadcasts := decide (y = x) }
    | .removeOperationBroadcaster => { s with broadcasts := false }

/-- `x` in a session. -/
def listener (x : Observer) (data : CollabData Observer) (log : List (Observer × Operation)) :
    Listener Operation :=
  ⟨decide (x ∈ data.operationObservers), decide (data.broadcaster = some x), received x log⟩

theorem received_append (x : Observer) (log sent : List (Observer × Operation)) :
    received x (log ++ sent) = received x log ++ received x sent := by
  unfold received
  rw [List.filter_append, List.map_append]

theorem received_notify {l : List Observer} (h : l.Nodup) (x : Observer) (op : Operation) :
    received x (l.map fun superman => (superman, op)) = if x ∈ l then [op] else [] := by
  unfold received
  rw [List.filter_map, List.map_map]
  have hfilter : l.filter (fun y => decide (y = x)) = if x ∈ l then [x] else [] := by
    rw [List.filter_eq, h.count]
    split <;> rfl
  show (l.filter fun y => decide (y = x)).map _ = _
  rw [hfilter]
  split <;> rfl

theorem listener_call (h : Follows p data) (hc : data.call ndebug getType c = some (data', sent))
    (x : Observer) :
    listener x data' (log ++ sent) = (Listener.machine x).step (listener x data log) c := by
  unfold listener
  rw [received_append]
  cases c with
  | notifyOperationObservers op =>
    obtain ⟨sent', hs, he⟩ := Option.map_eq_some_iff.mp hc
    obtain ⟨rfl, rfl⟩ := Prod.mk.inj he
    unfold notifyOperationObservers at hs
    split at hs
    · obtain rfl := Option.some.inj hs
      rw [received_notify h.nodup]
      simp [Listener.machine]
    · cases hs
  | addOperationObserver y =>
    obtain ⟨rfl, rfl⟩ := Prod.mk.inj (Option.some.inj hc)
    rw [addOperationObserver_broadcaster]
    simp [Listener.machine, mem_addOperationObserver, received]
  | clearOperationObservers =>
    obtain ⟨rfl, rfl⟩ := Prod.mk.inj (Option.some.inj hc)
    have hx : x ∉ ([] : List Observer) := List.not_mem_nil
    exact Listener.ext (decide_eq_false hx) rfl (List.append_nil _)
  | notifyOperationBroadcaster op =>
    obtain ⟨rfl, rfl⟩ := Prod.mk.inj (Option.some.inj hc)
    unfold notifyOperationBroadcaster
    cases hb : data.broadcaster with
    | none => simp [Listener.machine, received]
    | some y => by_cases hy : y = x <;> simp [Listener.machine, received, hy]
  | setOperationBroadcaster y =>
    obtain ⟨rfl, rfl⟩ := Prod.mk.inj (Option.some.inj hc)
    refine Listener.ext rfl ?_ (List.append_nil _)
    exact decide_eq_decide.mpr Option.some_inj
  | removeOperationBroadcaster =>
    obtain ⟨rfl, rfl⟩ := Prod.mk.inj (Option.some.inj hc)
    refine Listener.ext rfl ?_ (List.append_nil _)
    exact decide_eq_false (Option.some_ne_none x).symm

theorem listener_session (x : Observer) :
    ∀ {p : List (Call Observer Operation)} {data : CollabData Observer}
      {log : List (Observer × Operation)}, (session Observer ndebug getType).run p = some (data, log) →
      listener x data log = (Listener.machine x).run p := by
  intro p
  induction p using List.reverseRecOn with
  | nil =>
    intro data log h
    obtain ⟨rfl, rfl⟩ := Prod.mk.inj (Option.some.inj h)
    simp [listener, empty, received, Listener.machine]
  | append_singleton p c ih =>
    intro data' log' h
    obtain ⟨data, log, sent, hp, hc, rfl⟩ := session_concat h
    rw [Machine.run_concat, ← ih hp]
    exact listener_call (follows_session hp) hc x

/-- Calls that do not concern `x` may be left out of what it sees. -/
theorem listener_concerns (x : Observer) (p : List (Call Observer Operation)) :
    (Listener.machine x).run (p.filterMap (concerns x)) = (Listener.machine x).run p := by
  rw [List.filterMap_eq_flatMap_toList]
  refine (Machine.run_flatMap (f := id) rfl (fun s c => ?_) p).symm
  cases c with
  | addOperationObserver y => by_cases h : y = x <;> simp [concerns, Listener.machine, h]
  | setOperationBroadcaster y => by_cases h : y = x <;> simp [concerns, Listener.machine, h]
  | notifyOperationObservers | clearOperationObservers | notifyOperationBroadcaster
  | removeOperationBroadcaster => rfl

/-- **What an observer receives is its own affair**: in two sessions whose calls are, as far as they
concern `x`, the same, it receives the same operations in the same order. -/
theorem observers_apart (ndebug : Bool) (getType : Operation → UInt32)
    (p p' : List (Call Observer Operation))
    {data data' : CollabData Observer} {log log' : List (Observer × Operation)} {x : Observer}
    (hp : (session Observer ndebug getType).run p = some (data, log))
    (hp' : (session Observer ndebug getType).run p' = some (data', log'))
    (h : p.filterMap (concerns x) = p'.filterMap (concerns x)) :
    received x log = received x log' := by
  have hl : listener x data log = listener x data' log' := by
    rw [listener_session x hp, listener_session x hp', ← listener_concerns, h, listener_concerns]
  exact congrArg Listener.received hl

/-- Whether another observer hears of everything, and who the broadcaster is otherwise, makes no
difference to the first. -/
theorem observers_apart_other :
    received 0 [((0 : ℕ), (5 : ℕ)), (1, 5), (2, 6), (0, 7)] = received 0 [(0, 5), (0, 7)] :=
  observers_apart false (fun _ => 1)
    [.addOperationObserver 0, .addOperationObserver 1, .notifyOperationObservers 5,
      .setOperationBroadcaster 2, .notifyOperationBroadcaster 6, .clearOperationObservers,
      .addOperationObserver 0, .notifyOperationObservers 7]
    [.addOperationObserver 0, .notifyOperationObservers 5, .removeOperationBroadcaster,
      .notifyOperationBroadcaster 6, .clearOperationObservers, .addOperationObserver 0,
      .notifyOperationObservers 7] rfl rfl (by decide)

end CollabDatatypes.Collabdata.CollabData
