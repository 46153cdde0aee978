import Mathlib.Algebra.Ring.Nat
import QuickMpc.Exchange

/-!
# QuickMpc.ShareStream

One `exchangeShares`, down to the messages on the stream: `makeShares` splits the shares
into messages of about 1 MB, the handler `ExchangeShares` files them in the map `shares`,
and `getShares` takes them out again.

A message carries the party id once, and it is set only when the message is finished; of
an address the sender sets the share id and the job id, so that the receiver reads the
thread id `0`. The messages have the entries of the ones in `Exchange`
(`share_list_makeShares`).
-/

namespace QuickMpc.ShareStream

open QuickMpc.JobManager (AddressId)
open QuickMpc.Exchange (Entry addressId_size partyId_size)

/-! ### Messages -/

/-- The message `Shares.Share`. -/
structure SharesShare where
  value : String
  address_id : AddressId
  deriving DecidableEq, Repr

/-- The message `Shares`. A field that is not set is read as `0`. -/
structure Shares where
  share_list : List SharesShare := []
  party_id : ℤ := 0
  deriving DecidableEq, Repr

/-- `add_share_list()` for a value and its address: the thread id is not set. -/
def toShare (e : Entry) : SharesShare := ⟨e.2, ⟨e.1.share_id, e.1.job_id, 0⟩⟩

def Shares.add (s : Shares) (e : Entry) : Shares :=
  { s with share_list := s.share_list ++ [toShare e] }

/-- The loop of `makeShares` from the shares left, `size` and the message `s`. -/
def makeSharesFrom (party_id : ℤ) : List Entry → ℕ → Shares → List Shares
  | [], _, s => [{ s with party_id := party_id }]
  | e :: rest, size, s =>
    let value_size := e.2.utf8ByteSize
    if size + value_size + addressId_size + partyId_size > 1000000 then
      { s with party_id := party_id } ::
        makeSharesFrom party_id rest (0 + value_size + addressId_size) (Shares.add {} e)
    else makeSharesFrom party_id rest (size + value_size + addressId_size) (s.add e)

/-- `makeShares`. -/
def makeShares (entries : List Entry) (party_id : ℤ) : List Shares :=
  makeSharesFrom party_id entries 0 {}

/-- The bytes that `makeShares` accounts for in a message. -/
def Shares.accounted (s : Shares) : ℕ :=
  (s.share_list.map fun e => e.value.utf8ByteSize + addressId_size).sum + partyId_size

@[simp] theorem Shares.share_list_add (s : Shares) (e : Entry) :
    (s.add e).share_list = s.share_list ++ [toShare e] := rfl

theorem Shares.accounted_add (s : Shares) (e : Entry) :
    (s.add e).accounted = s.accounted + (e.2.utf8ByteSize + addressId_size) := by
  simp only [Shares.accounted, Shares.share_list_add, toShare, List.map_append, List.map_cons,
    List.map_nil, List.sum_append, List.sum_cons, List.sum_nil]
  omega

section Split

variable {party_id : ℤ}

theorem party_id_makeSharesFrom (entries : List Entry) (size : ℕ) (s : Shares) :
    ∀ m ∈ makeSharesFrom party_id entries size s, m.party_id = party_id := by
  induction entries generalizing size s with
  | nil =>
      intro m hm
      rw [List.mem_singleton.mp hm]
  | cons e rest ih =>
      rw [makeSharesFrom]
      split
      · intro m hm
        rcases List.mem_cons.mp hm with rfl | hrest
        · rfl
        · exact ih _ _ m hrest
      · exact ih _ _

/-- A message is closed before it gets too large, unless it has one share only. The loop
counts the bytes of the message but for the party id. -/
theorem accounted_makeSharesFrom (entries : List Entry) {size : ℕ} {s : Shares}
    (hsize : s.accounted = size + partyId_size)
    (hs : 1 < s.share_list.length → s.accounted ≤ 1000000) :
    ∀ m ∈ makeSharesFrom party_id entries size s,
      1 < m.share_list.length → m.accounted ≤ 1000000 := by
  induction entries generalizing size s with
  | nil =>
      intro m hm
      rw [List.mem_singleton.mp hm]
      exact hs
  | cons e rest ih =>
      rw [makeSharesFrom]
      split
      case isTrue =>
        intro m hm
        rcases List.mem_cons.mp hm with rfl | hrest
        · exact hs
        · refine ih ?_ ?_ m hrest
          · rw [Shares.accounted_add]
            simp only [Shares.accounted, List.map_nil, List.sum_nil]
            omega
          · intro hone
            exact absurd hone (lt_irrefl 1)
      case isFalse hfits =>
        refine ih ?_ fun _ => ?_
        · rw [Shares.accounted_add, hsize]
          omega
        · rw [Shares.accounted_add, hsize]
          omega

/-- The entries are those of the messages in `Exchange`. -/
theorem share_list_makeSharesFrom (entries : List Entry) (size : ℕ) {s : Shares}
    {filled : List Entry} (hs : s.share_list = filled.map toShare) :
    (makeSharesFrom party_id entries size s).map Shares.share_list
      = (Exchange.makeSharesFrom entries size filled).map (List.map toShare) := by
  induction entries generalizing size s filled with
  | nil => simp [makeSharesFrom, Exchange.makeSharesFrom, hs]
  | cons e rest ih =>
      rw [makeSharesFrom, Exchange.makeSharesFrom]
      split
      · have hfresh : (Shares.add {} e).share_list = [e].map toShare := rfl
        rw [List.map_cons, List.map_cons, ih _ hfresh, hs]
      · exact ih _ (by rw [Shares.share_list_add, hs, List.map_append]; rfl)

theorem share_list_makeShares (entries : List Entry) :
    (makeShares entries party_id).map Shares.share_list
      = (Exchange.makeShares entries).map (List.map toShare) :=
  share_list_makeSharesFrom entries 0 rfl

theorem flatMap_makeShares (entries : List Entry) :
    (makeShares entries party_id).flatMap Shares.share_list = entries.map toShare := by
  rw [List.flatMap_def, share_list_makeShares, ← List.map_flatten, Exchange.makeShares_flatten]

end Split

/-! ### The receiver -/

/-- `Server::shares`, the map of the receiver. -/
abbrev SharesMap := ℤ × AddressId → Option String

/-- `Server::ExchangeShares`, for the messages read from the stream. -/
def exchangeShares (shares : SharesMap) (stream : List Shares) : SharesMap :=
  stream.foldl (fun shares multiple_shares =>
    multiple_shares.share_list.foldl (fun shares s =>
      Function.update shares (multiple_shares.party_id, s.address_id) (some s.value)) shares) shares

/-- `Server::getShares`: the values and the map left. `none` says that it waits for a
share. -/
def getShares (party_id : ℤ) : List AddressId → SharesMap → Option (List String × SharesMap)
  | [], shares => some ([], shares)
  | id :: share_ids, shares =>
    match shares (party_id, id) with
    | none => none
    | some share =>
      match getShares party_id share_ids (Function.update shares (party_id, id) none) with
      | none => none
      | some (str_values, shares) => some (share :: str_values, shares)

/-- The shares of one party, filed one by one. -/
def file (party_id : ℤ) (shares : SharesMap) (list : List SharesShare) : SharesMap :=
  list.foldl (fun shares s => Function.update shares (party_id, s.address_id) (some s.value)) shares

/-- Where one message ends and the next one starts does not matter to the receiver. -/
theorem exchangeShares_eq_file {party_id : ℤ} {stream : List Shares}
    (h : ∀ m ∈ stream, m.party_id = party_id) (shares : SharesMap) :
    exchangeShares shares stream = file party_id shares (stream.flatMap Shares.share_list) := by
  induction stream generalizing shares with
  | nil => rfl
  | cons m stream ih =>
      have hrest := ih (fun m' hm' => h m' (List.mem_cons_of_mem m hm'))
      rw [List.flatMap_cons, file, List.foldl_append, ← h m List.mem_cons_self]
      rw [← h m List.mem_cons_self] at hrest
      exact hrest _

/-- Filing leaves the other keys alone. -/
theorem file_of_notMem (party_id : ℤ) {list : List SharesShare} {key : ℤ × AddressId}
    (h : ¬(key.1 = party_id ∧ key.2 ∈ list.map SharesShare.address_id)) (shares : SharesMap) :
    file party_id shares list key = shares key := by
  induction list generalizing shares with
  | nil => rfl
  | cons s list ih =>
      have hne : key ≠ (party_id, s.address_id) := by
        intro heq
        rw [heq] at h
        exact h ⟨rfl, List.mem_cons_self⟩
      rw [file, List.foldl_cons]
      refine (ih (fun hmem => h ⟨hmem.1, List.mem_cons_of_mem _ hmem.2⟩) _).trans ?_
      exact Function.update_of_ne hne _ _

/-- Under distinct addresses every value is found. -/
theorem file_of_mem (party_id : ℤ) {list : List SharesShare}
    (hnodup : (list.map SharesShare.address_id).Nodup) (shares : SharesMap) :
    ∀ s ∈ list, file party_id shares list (party_id, s.address_id) = some s.value := by
  induction list generalizing shares with
  | nil => simp
  | cons s list ih =>
      rw [List.map_cons, List.nodup_cons] at hnodup
      intro s' hs'
      rw [file, List.foldl_cons]
      rcases List.mem_cons.mp hs' with rfl | hrest
      · exact (file_of_notMem party_id (fun hmem => hnodup.1 hmem.2) _).trans
          (Function.update_self _ _ _)
      · exact ih hnodup.2 _ s' hrest

/-- `getShares` takes what is filed, in the order of the ids, and nothing else. -/
theorem getShares_eq (party_id : ℤ) {list : List SharesShare}
    (hnodup : (list.map SharesShare.address_id).Nodup) {shares : SharesMap}
    (h : ∀ s ∈ list, shares (party_id, s.address_id) = some s.value) :
    ∃ left, getShares party_id (list.map SharesShare.address_id) shares
        = some (list.map SharesShare.value, left) ∧
      ∀ key, left key = if key.1 = party_id ∧ key.2 ∈ list.map SharesShare.address_id then none
        else shares key := by
  induction list generalizing shares with
  | nil => exact ⟨shares, rfl, fun key => by simp⟩
  | cons s list ih =>
      rw [List.map_cons, List.nodup_cons] at hnodup
      have hrest : ∀ s' ∈ list, Function.update shares (party_id, s.address_id) none
          (party_id, s'.address_id) = some s'.value := by
        intro s' hs'
        rw [Function.update_of_ne, h s' (List.mem_cons_of_mem s hs')]
        intro heq
        have haddr : s'.address_id = s.address_id := congrArg Prod.snd heq
        exact hnodup.1 (haddr ▸ List.mem_map_of_mem hs')
      obtain ⟨left, hget, hleft⟩ := ih hnodup.2 hrest
      refine ⟨left, ?_, fun key => ?_⟩
      · rw [List.map_cons, getShares, h s List.mem_cons_self]
        dsimp only
        rw [hget]
        rfl
      · rw [hleft key, List.map_cons]
        by_cases hkey : key = (party_id, s.address_id)
        · rw [hkey, Function.update_self, ite_self, if_pos ⟨rfl, List.mem_cons_self⟩]
        · have hiff : (key.1 = party_id ∧ key.2 ∈ s.address_id :: list.map SharesShare.address_id) ↔
              key.1 = party_id ∧ key.2 ∈ list.map SharesShare.address_id := by
            refine and_congr_right fun hparty => ?_
            rw [List.mem_cons, or_iff_right]
            exact fun haddr => hkey (Prod.ext hparty haddr)
          rw [Function.update_of_ne hkey]
          exact if_congr hiff.symm rfl rfl

/-! ### One call -/

theorem value_map_toShare (entries : List Entry) :
    (entries.map toShare).map SharesShare.value = entries.map Prod.snd := by
  rw [List.map_map]
  rfl

/-- With the thread id `0` the receiver reads the address of the sender. -/
theorem address_id_map_toShare {entries : List Entry} (h : ∀ e ∈ entries, e.1.thread_id = 0) :
    (entries.map toShare).map SharesShare.address_id = entries.map Prod.fst := by
  rw [List.map_map]
  refine List.map_congr_left fun e he => ?_
  show (⟨e.1.share_id, e.1.job_id, 0⟩ : AddressId) = e.1
  rw [← h e he]

/-- **A stream of messages** carries the shares in order, each message with the party id of
the sender and of a limited size, and the receiver gets the values that were sent. -/
theorem transfer_correct (entries : List Entry) (party_id : ℤ)
    (hids : (entries.map Prod.fst).Nodup) :
    (makeShares entries party_id).flatMap Shares.share_list = entries.map toShare ∧
    (∀ m ∈ makeShares entries party_id, m.party_id = party_id) ∧
    (∀ m ∈ makeShares entries party_id, 1 < m.share_list.length → m.accounted ≤ 1000000) ∧
    ((∀ e ∈ entries, e.1.thread_id = 0) → ∀ shares : SharesMap, ∃ left,
      getShares party_id (entries.map Prod.fst)
          (exchangeShares shares (makeShares entries party_id))
        = some (entries.map Prod.snd, left) ∧
      ∀ key, left key = if key.1 = party_id ∧ key.2 ∈ entries.map Prod.fst then none
        else shares key) := by
  have hflat : (makeShares entries party_id).flatMap Shares.share_list = entries.map toShare :=
    flatMap_makeShares entries
  have hparty : ∀ m ∈ makeShares entries party_id, m.party_id = party_id :=
    party_id_makeSharesFrom entries 0 {}
  refine ⟨hflat, hparty, ?_, fun hthread shares => ?_⟩
  · refine accounted_makeSharesFrom entries rfl fun hone => ?_
    exact absurd hone (Nat.not_lt_zero 1)
  · have haddr := address_id_map_toShare hthread
    have hnodup : ((entries.map toShare).map SharesShare.address_id).Nodup := by
      rwa [haddr]
    obtain ⟨left, hget, hleft⟩ :=
      getShares_eq party_id hnodup (file_of_mem party_id hnodup shares)
    rw [haddr, value_map_toShare] at hget
    rw [exchangeShares_eq_file hparty, hflat]
    refine ⟨left, hget, fun key => ?_⟩
    rw [hleft key, haddr]
    by_cases hkey : key.1 = party_id ∧ key.2 ∈ entries.map Prod.fst
    · rw [if_pos hkey, if_pos hkey]
    · rw [if_neg hkey, if_neg hkey, file_of_notMem]
      rwa [haddr]

/-- Two shares of a job, into a map with a stale value. -/
theorem transfer_correct_two :
    (([(⟨0, 7, 0⟩, "1.5"), (⟨1, 7, 0⟩, "-2")] : List Entry).map Prod.fst).Nodup ∧
    ∃ left, getShares 2 [⟨0, 7, 0⟩, ⟨1, 7, 0⟩]
        (exchangeShares (fun key => if key = (2, ⟨1, 7, 0⟩) then some "0" else none)
          (makeShares [(⟨0, 7, 0⟩, "1.5"), (⟨1, 7, 0⟩, "-2")] 2))
      = some (["1.5", "-2"], left) := by
  have hids : (([(⟨0, 7, 0⟩, "1.5"), (⟨1, 7, 0⟩, "-2")] : List Entry).map Prod.fst).Nodup := by
    decide
  obtain ⟨left, hget, -⟩ := (transfer_correct [(⟨0, 7, 0⟩, "1.5"), (⟨1, 7, 0⟩, "-2")] 2 hids).2.2.2
    (by decide) fun key => if key = (2, ⟨1, 7, 0⟩) then some "0" else none
  exact ⟨hids, left, hget⟩

end QuickMpc.ShareStream
