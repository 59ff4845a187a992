/-
  HieraChain/ReadWriteSetIntake.lean
  ==================================
  **Read-write sets of other shards** (`receiveRemoteMsgWorker` of
  `libplugin/SyncThreadMaster.cpp`, `LRU_StatesInfo` and `ReadWriteSetManager` of
  `libplugin/Common.h`).

  A message holds keys, values and contention rates as three texts, each joined
  by bars.  The worker splits each text by itself and reads the pieces by the
  index of the key; `at` throws behind the end of a list, and nothing catches it.

  Neighbouring bars count as one, so an empty value or rate between two others
  moves the later ones up by one place, and the last one is missing
  (`intake_iff`).
-/
import HieraChain.AssocMap
import HieraChain.CompressedSplit
import HieraChain.Decimal
import HieraChain.Table

namespace HieraChain.ReadWriteSetIntake

open HieraChain.BigEndian HieraChain.CompressedSplit HieraChain.Decimal HieraChain.Storage

/-! ### The worker -/

def bar : UInt8 := UInt8.ofNat '|'.toNat

inductive Failure
  | outOfRange
  | overflow
  deriving DecidableEq, Repr

/-- `csTxRWset`. -/
structure RWSetMsg where
  readwritekey : Bytes
  value : Bytes
  contentionrate : Bytes
  sourceshardid : Int
  deriving DecidableEq

structure remoteKeyContention where
  shardid : Bytes
  contention : Bytes
  stateAddress : Bytes
  deriving DecidableEq

/-- `m_LRU_remotekeys_intraTx` and `receivedTxRWset`. -/
structure State where
  remotekeys : AssocMap Bytes remoteKeyContention := .empty
  receivedTxRWset : AssocMap Bytes Int := .empty

namespace State

variable (s : State)

def updateRemoteKeyContention (remotekey number shardid : Bytes) : State :=
  { s with
    remotekeys := s.remotekeys.insert remotekey
      (match s.remotekeys.find? remotekey with
      | some item => { item with contention := number, shardid }
      | none => { shardid, contention := number, stateAddress := remotekey }) }

def insertReceivedRwset (originalKey : Bytes) : Except Failure State :=
  match s.receivedTxRWset.find? originalKey with
  | none => .ok { s with receivedTxRWset := s.receivedTxRWset.insert originalKey 1 }
  | some number =>
    if number + 1 < 2 ^ 31 then .ok { s with receivedTxRWset := s.receivedTxRWset.insert originalKey (number + 1) }
    else .error .overflow

end State

def originalKey (receivedKey : Bytes) : Bytes := (split underscore receivedKey).headD []

/-- The loop over the keys; `at` reads the value and the rate of the same index. -/
def receiveItems (sourceshardid : Bytes) : List Bytes → List Bytes → List Bytes → State → Except Failure State
  | [], _, _, s => .ok s
  | receivedKey :: keyItems, _ :: valueItems, contentionRate :: contentionItems, s => do
    let s := s.updateRemoteKeyContention (originalKey receivedKey) contentionRate sourceshardid
    let s ← s.insertReceivedRwset (originalKey receivedKey)
    receiveItems sourceshardid keyItems valueItems contentionItems s
  | _ :: _, _, _, _ => .error .outOfRange

def receive (s : State) (msg : RWSetMsg) : Except Failure State :=
  receiveItems (signedDecimal msg.sourceshardid) (split bar msg.readwritekey) (split bar msg.value)
    (split bar msg.contentionrate) s

/-! ### What is to be recorded -/

/-- `receivedTxRWset` of a key, which is zero where the key is missing. -/
def State.count (s : State) (key : Bytes) : Int := (s.receivedTxRWset.find? key).getD 0

def lastRate (keys rates : List Bytes) (key : Bytes) : Option Bytes :=
  ((keys.map originalKey).zip rates).reverse.lookup key

/-- The rates of the keys are recorded, the keys are counted, and nothing else is
    changed. -/
structure Recorded (shardid : Bytes) (keys rates : List Bytes) (s s' : State) : Prop where
  contention : ∀ key, s'.remotekeys.find? key =
    match lastRate keys rates key with
    | some rate => some ⟨shardid, rate, ((s.remotekeys.find? key).map remoteKeyContention.stateAddress).getD key⟩
    | none => s.remotekeys.find? key
  count : ∀ key, s'.count key = s.count key + (keys.map originalKey).count key

/-- The counts of the keys stay in an `int`. -/
def Room (s : State) (keys : List Bytes) : Prop :=
  ∀ key ∈ keys.map originalKey, s.count key + (keys.map originalKey).count key < 2 ^ 31

def Inner (texts : List Bytes) : Prop := ∀ text ∈ texts.tail.dropLast, text ≠ []

instance (s : State) (keys : List Bytes) : Decidable (Room s keys) := inferInstanceAs (Decidable (∀ key ∈ _, _))

instance (texts : List Bytes) : Decidable (Inner texts) := inferInstanceAs (Decidable (∀ text ∈ _, _))

def joined (texts : List Bytes) : Bytes := [bar].intercalate texts

/-! ### Proofs -/

theorem lastRate_cons (k rate : Bytes) (keys rates : List Bytes) (key : Bytes) :
    lastRate (k :: keys) (rate :: rates) key
      = (lastRate keys rates key).or (if key = originalKey k then some rate else none) := by
  rw [lastRate, List.map_cons, List.zip_cons_cons, List.reverse_cons, List.lookup_append, lastRate]
  congr 1
  by_cases h : key = originalKey k
  · simp [h]
  · have hbeq : (key == originalKey k) = false := by simpa using h
    rw [List.lookup_cons, hbeq, if_neg h]
    rfl

section steps

variable {s s' : State}

theorem count_updateRemoteKeyContention (remotekey number shardid key : Bytes) :
    (s.updateRemoteKeyContention remotekey number shardid).count key = s.count key := rfl

theorem find?_updateRemoteKeyContention (remotekey number shardid key : Bytes) :
    (s.updateRemoteKeyContention remotekey number shardid).remotekeys.find? key =
      if key = remotekey then
        some ⟨shardid, number, ((s.remotekeys.find? key).map remoteKeyContention.stateAddress).getD key⟩
      else s.remotekeys.find? key := by
  rw [State.updateRemoteKeyContention, AssocMap.find?_insert]
  by_cases h : key = remotekey
  · rw [if_pos h, if_pos h, h]
    cases s.remotekeys.find? remotekey with
    | none => rfl
    | some item => rfl
  · rw [if_neg h, if_neg h]

theorem insertReceivedRwset_spec {key : Bytes} (h : s.insertReceivedRwset key = .ok s') :
    s'.remotekeys = s.remotekeys ∧ (∀ key', s'.count key' = s.count key' + if key' = key then 1 else 0)
      ∧ s.count key + 1 < 2 ^ 31 := by
  unfold State.insertReceivedRwset at h
  cases hfind : s.receivedTxRWset.find? key with
  | none =>
    rw [hfind] at h
    cases h
    have hzero : s.count key = 0 := by rw [State.count, hfind, Option.getD_none]
    refine ⟨rfl, fun key' => ?_, by omega⟩
    rw [State.count, AssocMap.find?_insert]
    by_cases heq : key' = key
    · rw [if_pos heq, if_pos heq, heq, hzero]
      rfl
    · rw [if_neg heq, if_neg heq, add_zero]
      rfl
  | some number =>
    rw [hfind] at h
    dsimp only at h
    have hcount : s.count key = number := by rw [State.count, hfind, Option.getD_some]
    by_cases hroom : number + 1 < 2 ^ 31
    · rw [if_pos hroom] at h
      cases h
      refine ⟨rfl, fun key' => ?_, hcount ▸ hroom⟩
      rw [State.count, AssocMap.find?_insert]
      by_cases heq : key' = key
      · rw [if_pos heq, if_pos heq, heq, hcount]
        rfl
      · rw [if_neg heq, if_neg heq, add_zero]
        rfl
    · rw [if_neg hroom] at h
      cases h

theorem exists_insertReceivedRwset {key : Bytes} (h : s.count key + 1 < 2 ^ 31) :
    ∃ s', s.insertReceivedRwset key = .ok s' := by
  unfold State.insertReceivedRwset
  cases hfind : s.receivedTxRWset.find? key with
  | none => exact ⟨_, rfl⟩
  | some number =>
    rw [State.count, hfind, Option.getD_some] at h
    exact ⟨_, if_pos h⟩

theorem Recorded.nil (shardid : Bytes) (rates : List Bytes) (s : State) : Recorded shardid [] rates s s :=
  ⟨fun _ => rfl, fun _ => (add_zero _).symm⟩

theorem Recorded.cons {shardid k rate : Bytes} {keys rates : List Bytes} {s₁ : State}
    (hfirst : (s.updateRemoteKeyContention (originalKey k) rate shardid).insertReceivedRwset (originalKey k) = .ok s₁)
    (h : Recorded shardid keys rates s₁ s') : Recorded shardid (k :: keys) (rate :: rates) s s' := by
  obtain ⟨hremote, hcount, -⟩ := insertReceivedRwset_spec hfirst
  refine ⟨fun key => ?_, fun key => ?_⟩
  · rw [h.contention, lastRate_cons, hremote, find?_updateRemoteKeyContention]
    by_cases hkey : key = originalKey k
    · rw [if_pos hkey, if_pos hkey]
      cases lastRate keys rates key with
      | none => rfl
      | some rate' => rfl
    · rw [if_neg hkey, if_neg hkey, Option.or_none]
  · rw [h.count, hcount, count_updateRemoteKeyContention, List.map_cons, List.count_cons]
    by_cases hkey : key = originalKey k
    · simp [hkey]
      omega
    · simp [hkey, Ne.symm hkey]

end steps

theorem room_cons_iff {k rate shardid : Bytes} {keys : List Bytes} {s s₁ : State}
    (hfirst : (s.updateRemoteKeyContention (originalKey k) rate shardid).insertReceivedRwset (originalKey k) = .ok s₁) :
    Room s (k :: keys) ↔ Room s₁ keys := by
  obtain ⟨-, hcount, hone⟩ := insertReceivedRwset_spec hfirst
  have hsum : ∀ key, s₁.count key + (keys.map originalKey).count key
      = s.count key + ((k :: keys).map originalKey).count key := by
    intro key
    rw [hcount, count_updateRemoteKeyContention, List.map_cons, List.count_cons]
    by_cases hkey : key = originalKey k
    · simp [hkey]
      omega
    · simp [hkey, Ne.symm hkey]
  constructor
  · intro h key hkey
    rw [hsum]
    exact h key (List.mem_cons_of_mem _ hkey)
  · intro h key hkey
    by_cases hmem : key ∈ keys.map originalKey
    · rw [← hsum]
      exact h key hmem
    · have hself : key = originalKey k := (List.mem_cons.mp hkey).resolve_right hmem
      have hzero : (keys.map originalKey).count key = 0 := List.count_eq_zero.mpr hmem
      rw [← hsum, hzero, hcount, if_pos hself, hself]
      simpa using hone

/-- The loop finishes exactly when there are a value and a rate for each key and
    the counts have room; then it records what it read. -/
theorem receiveItems_spec (shardid : Bytes) (keys values rates : List Bytes) (s : State) :
    (∀ s', receiveItems shardid keys values rates s = .ok s' → Recorded shardid keys rates s s')
      ∧ ((∃ s', receiveItems shardid keys values rates s = .ok s')
        ↔ keys.length ≤ values.length ∧ keys.length ≤ rates.length ∧ Room s keys) := by
  induction keys generalizing values rates s with
  | nil =>
    refine ⟨fun s' h => ?_, iff_of_true ⟨s, rfl⟩ ⟨Nat.zero_le _, Nat.zero_le _, nofun⟩⟩
    cases h
    exact Recorded.nil shardid rates s
  | cons k keys ih =>
    cases values with
    | nil => exact ⟨nofun, iff_of_false nofun fun h => absurd h.1 (Nat.not_succ_le_zero _)⟩
    | cons value values =>
      cases rates with
      | nil => exact ⟨nofun, iff_of_false nofun fun h => absurd h.2.1 (Nat.not_succ_le_zero _)⟩
      | cons rate rates =>
        rw [List.length_cons, List.length_cons, List.length_cons, Nat.add_le_add_iff_right, Nat.add_le_add_iff_right]
        cases hfirst : (s.updateRemoteKeyContention (originalKey k) rate shardid).insertReceivedRwset (originalKey k) with
        | error failure =>
          have hloop : receiveItems shardid (k :: keys) (value :: values) (rate :: rates) s = .error failure := by
            rw [receiveItems, hfirst]
            rfl
          rw [hloop]
          refine ⟨nofun, iff_of_false nofun fun h => ?_⟩
          have hkey := h.2.2 (originalKey k) List.mem_cons_self
          rw [List.map_cons, List.count_cons_self] at hkey
          have hroom : (s.updateRemoteKeyContention (originalKey k) rate shardid).count (originalKey k) + 1 < 2 ^ 31 := by
            rw [count_updateRemoteKeyContention]
            omega
          obtain ⟨s₁, hok⟩ := exists_insertReceivedRwset hroom
          rw [hfirst] at hok
          cases hok
        | ok s₁ =>
          have hloop : receiveItems shardid (k :: keys) (value :: values) (rate :: rates) s
              = receiveItems shardid keys values rates s₁ := by
            rw [receiveItems, hfirst]
            rfl
          obtain ⟨hrecords, hfinishes⟩ := ih values rates s₁
          rw [hloop, hfinishes, room_cons_iff hfirst]
          exact ⟨fun s' h => Recorded.cons hfirst (hrecords s' h), Iff.rfl⟩

theorem split_joined_keys {keys : List Bytes} (hne : keys ≠ []) (h : ∀ key ∈ keys, key ≠ [] ∧ bar ∉ key) :
    split bar (joined keys) = keys := by
  obtain ⟨k, rest, rfl⟩ := List.exists_cons_of_ne_nil hne
  rw [joined, split_intercalate bar (h k List.mem_cons_self).2
    fun key hkey => (h key (List.mem_cons_of_mem k hkey)).2]
  rw [behind_of_ne_nil fun key hkey => (h key (List.mem_cons_of_mem k (List.dropLast_subset _ hkey))).1]

theorem length_split_joined_iff {texts : List Bytes} (hne : texts ≠ []) (h : ∀ text ∈ texts, bar ∉ text) :
    texts.length ≤ (split bar (joined texts)).length ↔ Inner texts := by
  obtain ⟨text, rest, rfl⟩ := List.exists_cons_of_ne_nil hne
  exact length_split_intercalate_iff bar (h text List.mem_cons_self)
    fun text' htext' => h text' (List.mem_cons_of_mem text htext')

theorem split_joined_of_inner {texts : List Bytes} (hne : texts ≠ []) (h : ∀ text ∈ texts, bar ∉ text)
    (hinner : Inner texts) : split bar (joined texts) = texts := by
  obtain ⟨text, rest, rfl⟩ := List.exists_cons_of_ne_nil hne
  rw [joined, split_intercalate bar (h text List.mem_cons_self)
    fun text' htext' => h text' (List.mem_cons_of_mem text htext')]
  have hrest : ∀ text' ∈ rest.dropLast, text' ≠ [] := hinner
  rw [behind_of_ne_nil hrest]

/-- Lists of one length are recorded exactly when no inner value and no inner rate
    is empty, and any message is completed exactly when its values and its rates
    have a piece for each piece of its keys; the counts need room in both cases. -/
theorem intake_iff (s : State) (sourceshardid : Int) (keys values rates : List Bytes) (msg : RWSetMsg) :
    (keys ≠ [] → values.length = keys.length → rates.length = keys.length →
      (∀ key ∈ keys, key ≠ [] ∧ bar ∉ key) → (∀ value ∈ values, bar ∉ value) → (∀ rate ∈ rates, bar ∉ rate) →
        ((∃ s', receive s ⟨joined keys, joined values, joined rates, sourceshardid⟩ = .ok s'
            ∧ Recorded (signedDecimal sourceshardid) keys rates s s')
          ↔ Inner values ∧ Inner rates ∧ Room s keys))
    ∧ ((∃ s', receive s msg = .ok s')
      ↔ (split bar msg.readwritekey).length ≤ (split bar msg.value).length
        ∧ (split bar msg.readwritekey).length ≤ (split bar msg.contentionrate).length
        ∧ Room s (split bar msg.readwritekey)) := by
  refine ⟨fun hne hvalues hrates hkeys hbarValues hbarRates => ?_, (receiveItems_spec ..).2⟩
  have hvaluesNe : values ≠ [] := by
    rintro rfl
    exact hne (List.eq_nil_of_length_eq_zero hvalues.symm)
  have hratesNe : rates ≠ [] := by
    rintro rfl
    exact hne (List.eq_nil_of_length_eq_zero hrates.symm)
  rw [receive, split_joined_keys hne hkeys]
  obtain ⟨hrecords, hfinishes⟩ := receiveItems_spec (signedDecimal sourceshardid) keys (split bar (joined values))
    (split bar (joined rates)) s
  rw [← length_split_joined_iff hvaluesNe hbarValues, ← length_split_joined_iff hratesNe hbarRates, hvalues, hrates,
    ← hfinishes]
  refine ⟨fun ⟨s', hok, _⟩ => ⟨s', hok⟩, fun ⟨s', hok⟩ => ⟨s', hok, ?_⟩⟩
  have hinner : Inner rates := by
    rw [← length_split_joined_iff hratesNe hbarRates, hrates]
    exact (hfinishes.mp ⟨s', hok⟩).2.1
  have hrecorded := hrecords s' hok
  rwa [split_joined_of_inner hratesNe hbarRates hinner] at hrecorded

/-- Two keys of one original key, an empty value at the end and an empty rate in
    front: `a_1|b|a_2`, `7|8|` and `|5|6`. -/
theorem intake_three :
    ∃ s', receive {} ⟨joined [[97, 95, 49], [98], [97, 95, 50]], joined [[55], [56], []], joined [[], [53], [54]], 3⟩ = .ok s'
      ∧ Recorded (signedDecimal 3) [[97, 95, 49], [98], [97, 95, 50]] [[], [53], [54]] {} s' := by
  refine ((intake_iff {} 3 [[97, 95, 49], [98], [97, 95, 50]] [[55], [56], []] [[], [53], [54]] ⟨[], [], [], 0⟩).1
    (by decide) rfl rfl (by decide) (by decide) (by decide)).mpr ⟨by decide, by decide, ?_⟩
  decide

/-- Of three keys the second has an empty value: `a|b|c`, `7||8` and `4|5|6`. -/
theorem inner_value_throws :
    receive {} ⟨joined [[97], [98], [99]], joined [[55], [], [56]], joined [[52], [53], [54]], 3⟩ = .error .outOfRange
      ∧ receive {} ⟨joined [[97], [98]], joined [[55]], joined [[52], [53]], 3⟩ = .error .outOfRange := by
  constructor
  · rfl
  · rfl

end HieraChain.ReadWriteSetIntake
