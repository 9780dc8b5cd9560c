import FloweeHub.P2P.ConnectionManager

/-! The tables of the connection manager agree. Two steps break this: the timer takes a peer out of
one table only, and a getdata that gets its sender banned may go on to fail. -/

namespace FloweeHub.P2P

open Lib Table AddressInfo List ConnectionManager Option Finset Except

/-- So many punishments by 10 get the address banned. -/
def AddressInfo.bans : ℕ → AddressInfo → Bool
  | 0, _ => false
  | n + 1, a => PUNISHMENT_MAX ≤ (a.punishPeer 10).punishment || (a.punishPeer 10).bans n

@[simp] theorem AddressInfo.segment_punishPeer (amount : ℤ) (a : AddressInfo) :
    (a.punishPeer amount).segment = a.segment := rfl

@[simp] theorem AddressInfo.segment_successfullyConnected (a : AddressInfo) :
    a.successfullyConnected.segment = a.segment := by
  unfold successfullyConnected
  split_ifs <;> rfl

/-- A peer that was not shut down. -/
def Peer.Alive {Tx : Type} (p : Peer Tx) : Prop := p.status ≠ .ShuttingDown

namespace ConnectionManager

variable {Tx : Type} {s s' s'' : ConnectionManager Tx} {p : Peer Tx} {ref id : ℕ}
  {f : AddressInfo → AddressInfo}

/-- A peer is in the table, under its id, as long as it is not shut down. -/
structure Agree (s : ConnectionManager Tx) : Prop where
  own : ∀ ref, (s ref).Alive → s.peers.lookup (s ref).connectionId = some ref
  object : ∀ id ref, s.peers.lookup id = some ref → (s ref).connectionId = id ∧ (s ref).Alive
  fresh : ∀ ref, s.nextObject ≤ ref → ¬ (s ref).Alive
  connected : ∀ id ∈ s.connectedPeers, s.peers.lookup id ≠ none
  segments : ∀ segment ∈ s.segments, segment ≠ 0
  wallet : ∀ ref segment, (s ref).Alive → (s ref).segment = some segment →
    segment ≠ 0 ∧ (s.addresses (s ref).address).segment = segment

theorem Agree.updateAddress (h : Agree s) (addr : ℕ) (hf : ∀ a, (f a).segment = a.segment) :
    Agree (s.updateAddress addr f) where
  __ := h
  wallet ref segment ha hs := by
    have hseg : ((s.updateAddress addr f).addresses (s ref).address).segment =
        (s.addresses (s ref).address).segment := by
      by_cases hadr : (s ref).address = addr
      · simp [ConnectionManager.updateAddress, hadr, hf]
      · simp [ConnectionManager.updateAddress, hadr]
    exact (h.wallet ref segment ha hs).imp_right hseg.trans

theorem setPeer_objects (ref : ℕ) (p : Peer Tx) (s : ConnectionManager Tx) (r : ℕ) :
    (s.setPeer ref p).objects r = if r = ref then p else s.objects r := by
  simp [setPeer, Function.update_apply]

theorem setPeer_alive (ha : p.Alive) : ((s.setPeer ref p).objects ref).Alive := by
  rwa [setPeer_objects, if_pos rfl]

/-- What an object is known by stays, and its wallet is that of its address. -/
theorem Agree.setPeer (h : Agree s) (ha : (s ref).Alive) (ha' : p.Alive)
    (hid : p.connectionId = (s ref).connectionId)
    (hw : ∀ segment, p.segment = some segment → segment ≠ 0 ∧
      (s.addresses p.address).segment = segment) :
    Agree (s.setPeer ref p) where
  own r hr := by
    rw [setPeer_objects] at hr ⊢
    by_cases hrr : r = ref
    · rw [if_pos hrr, hid, hrr]
      exact h.own ref ha
    · rw [if_neg hrr] at hr ⊢
      exact h.own r hr
  object i r hr := by
    rw [setPeer_objects]
    split_ifs with hrr
    · subst hrr
      exact ⟨hid.trans (h.object i r hr).1, ha'⟩
    · exact h.object i r hr
  fresh r hr := by
    have hrr : r ≠ ref := fun he => h.fresh r hr (he ▸ ha)
    rw [setPeer_objects, if_neg hrr]
    exact h.fresh r hr
  __ := h
  wallet r segment hr hs := by
    rw [setPeer_objects] at hr hs ⊢
    split_ifs at hr hs ⊢ with hrr
    · exact hw segment hs
    · exact h.wallet r segment hr hs

/-! ### Taking peers out -/

/-- Some peers were taken out, and the download manager was told of those that were connected. -/
structure Removes (s s' : ConnectionManager Tx) : Prop where
  inv : Agree s'
  peers : ∀ id, s'.peers.lookup id = s.peers.lookup id ∨ s'.peers.lookup id = none
  connected : ∀ id, id ∈ s'.connectedPeers ↔ id ∈ s.connectedPeers ∧ s'.peers.lookup id ≠ none
  calls : ∀ id, s'.peerDisconnected.count id =
    s.peerDisconnected.count id + if id ∈ s.connectedPeers ∧ s'.peers.lookup id = none then 1 else 0

theorem Removes.of_same (h : Agree s) (h' : Agree s') (hp : s'.peers = s.peers)
    (hc : s'.connectedPeers = s.connectedPeers) (hd : s'.peerDisconnected = s.peerDisconnected) :
    Removes s s' where
  inv := h'
  peers id := .inl (by rw [hp])
  connected id := by
    rw [hc, hp]
    exact ⟨fun hid => ⟨hid, h.connected id hid⟩, And.left⟩
  calls id := by
    rw [hd, hp, if_neg fun hid => h.connected id hid.1 hid.2, Nat.add_zero]

theorem Removes.refl (h : Agree s) : Removes s s := .of_same h h rfl rfl rfl

theorem Removes.trans (h : Removes s s') (h' : Removes s' s'') : Removes s s'' where
  inv := h'.inv
  peers id := by
    rcases h'.peers id with hid | hid
    · rw [hid]
      exact h.peers id
    · exact .inr hid
  connected id := by
    rw [h'.connected, h.connected]
    refine ⟨fun hid => ⟨hid.1.1, hid.2⟩, fun hid => ⟨⟨hid.1, ?_⟩, hid.2⟩⟩
    rcases h'.peers id with he | he
    · exact he ▸ hid.2
    · exact absurd he hid.2
  calls id := by
    rw [h'.calls, h.calls, Nat.add_assoc]
    have hgone : s'.peers.lookup id = none → s''.peers.lookup id = none := fun hn => by
      rcases h'.peers id with he | he
      · exact he.trans hn
      · exact he
    by_cases hc : id ∈ s.connectedPeers <;> by_cases hn : s'.peers.lookup id = none <;>
      simp [h.connected, hc, hn, hgone]

/-- The call returns, with some peers taken out. -/
def Succeeds (s : ConnectionManager Tx) (r : Except Assert (ConnectionManager Tx)) : Prop :=
  ∃ s', r = .ok s' ∧ Removes s s'

theorem Succeeds.same (h : Agree s) : s.Succeeds (.ok s) := ⟨s, rfl, .refl h⟩

theorem Succeeds.after {r : Except Assert (ConnectionManager Tx)} (hr : s'.Succeeds r)
    (h : Removes s s') : s.Succeeds r := by
  obtain ⟨t, ht, hr⟩ := hr
  exact ⟨t, ht, h.trans hr⟩

theorem Removes.updateAddress (h : Agree s) (addr : ℕ) (hf : ∀ a, (f a).segment = a.segment) :
    Removes s (s.updateAddress addr f) :=
  .of_same h (h.updateAddress addr hf) rfl rfl rfl

/-- A peer learns something that does not concern the tables. -/
theorem Removes.setPeer (h : Agree s) (ha : (s ref).Alive) (ha' : p.Alive)
    (hid : p.connectionId = (s ref).connectionId) (hadr : p.address = (s ref).address)
    (hseg : p.segment = (s ref).segment) : Removes s (s.setPeer ref p) :=
  .of_same h (h.setPeer ha ha' hid fun segment hs => hadr ▸ h.wallet ref segment ha (hseg ▸ hs))
    rfl rfl rfl

/-- What is left when a peer is taken out of the table and shut down. -/
def without (ref : ℕ) (s : ConnectionManager Tx) (connectedPeers : Finset ℕ)
    (peerDisconnected : List ℕ) :
    ConnectionManager Tx :=
  { s.setPeer ref (s ref).shutdown with
    peers := s.peers.erase (s ref).connectionId
    connectedPeers := connectedPeers
    peerDisconnected := peerDisconnected }

theorem without_objects (s : ConnectionManager Tx) (connectedPeers : Finset ℕ)
    (peerDisconnected : List ℕ) (r : ℕ) :
    (s.without ref connectedPeers peerDisconnected).objects r =
      if r = ref then (s ref).shutdown else s.objects r :=
  setPeer_objects ref _ s r

theorem Agree.without (h : Agree s) (ha : (s ref).Alive) {connectedPeers : Finset ℕ}
    (hc : ∀ id ∈ connectedPeers, id ∈ s.connectedPeers ∧ id ≠ (s ref).connectionId)
    (peerDisconnected : List ℕ) :
    Agree (s.without ref connectedPeers peerDisconnected) where
  own r hr := by
    rw [without_objects] at hr ⊢
    by_cases hrr : r = ref
    · rw [if_pos hrr] at hr
      exact absurd rfl hr
    · rw [if_neg hrr] at hr ⊢
      have hl := h.own r hr
      have hne : (s r).connectionId ≠ (s ref).connectionId := fun he => by
        rw [he, h.own ref ha] at hl
        exact hrr (some.inj hl).symm
      rw [ConnectionManager.without, lookup_erase, if_neg hne, hl]
  object i r hr := by
    rw [ConnectionManager.without, lookup_erase] at hr
    split_ifs at hr with hi
    obtain ⟨hid, hra⟩ := h.object i r hr
    have hrr : r ≠ ref := fun he => hi (by rw [← hid, he])
    rw [without_objects, if_neg hrr]
    exact ⟨hid, hra⟩
  fresh r hr := by
    rw [without_objects]
    split_ifs with hrr
    · exact fun hne => hne rfl
    · exact h.fresh r hr
  connected i hi := by
    rw [ConnectionManager.without, lookup_erase, if_neg (hc i hi).2]
    exact h.connected i (hc i hi).1
  segments := h.segments
  wallet r segment hr hs := by
    rw [without_objects] at hr hs ⊢
    split_ifs at hr hs ⊢ with hrr
    · exact absurd rfl hr
    · exact h.wallet r segment hr hs

def removed (ref : ℕ) (s : ConnectionManager Tx) : ConnectionManager Tx :=
  s.without ref (s.connectedPeers.erase (s ref).connectionId)
    (if (s ref).connectionId ∈ s.connectedPeers then s.peerDisconnected ++ [(s ref).connectionId]
      else s.peerDisconnected)

variable (h : Agree s) {now segment : ℕ} {α β : Type}

include h

section

variable (ha : (s ref).Alive)

include ha

theorem removePeer_eq : s.removePeer ref = .ok (s.removed ref) := by
  have hl := h.own ref ha
  unfold removePeer
  by_cases hc : (s ref).connectionId ∈ s.connectedPeers
  · simp [setPeer, hc, hl, removed, without]
  · simp [setPeer, hc, hl, removed, without]

theorem removes_removed : Removes s (s.removed ref) where
  inv := h.without ha (fun id hid => (mem_erase.mp hid).symm) _
  peers id := by
    rw [removed, without, lookup_erase]
    split_ifs
    · exact .inr rfl
    · exact .inl rfl
  connected id := by
    rw [removed, without, mem_erase, lookup_erase]
    by_cases hid : id = (s ref).connectionId
    · simp [hid]
    · simp only [hid, ne_eq, not_false_eq_true, true_and, if_false]
      exact ⟨fun hc => ⟨hc, h.connected id hc⟩, And.left⟩
  calls id := by
    rw [removed, without, lookup_erase]
    by_cases hid : id = (s ref).connectionId
    · subst hid
      by_cases hc : (s ref).connectionId ∈ s.connectedPeers <;> simp [hc]
    · have hn : ¬ (id ∈ s.connectedPeers ∧ s.peers.lookup id = none) :=
        fun hc => h.connected id hc.1 hc.2
      split_ifs
      · simp [Ne.symm hid]
      · simp

theorem removePeer_spec : s.Succeeds (s.removePeer ref) := ⟨_, removePeer_eq h ha, removes_removed h ha⟩

theorem disconnect_spec : s.Succeeds (s.disconnect ref) := by
  rw [disconnect, if_neg (by simp [h.own ref ha])]
  exact removePeer_spec h ha

/-- A peer is banned and removed, or only punished. -/
theorem punishPeer_spec (amount : ℤ) : ∃ s' banned, s.punishPeer ref amount = .ok (s', banned) ∧
      Removes s s' ∧
      (banned = false → s' = s.updateAddress (s ref).address (·.punishPeer amount)) := by
  have hu := Removes.updateAddress h (s ref).address (segment_punishPeer amount)
  obtain ⟨s', hs', hr⟩ := removePeer_spec hu.inv ha
  unfold punishPeer
  dsimp only
  split_ifs
  · refine ⟨s', true, ?_, hu.trans hr, by simp⟩
    rw [hs']
    rfl
  · exact ⟨_, false, rfl, hu, fun _ => rfl⟩

end

theorem punish_spec (id : ℕ) (amount : ℤ) : s.Succeeds ((s.punish id amount).map Prod.fst) := by
  unfold punish
  cases hl : s.peers.lookup id with
  | none => exact .same h
  | some ref =>
    obtain ⟨s', banned, hs', hr, -⟩ := punishPeer_spec h (h.object id ref hl).2 amount
    refine ⟨s', ?_, hr⟩
    dsimp only
    rw [hs']
    rfl

theorem parsingFailure_spec (ha : (s ref).Alive) : s.Succeeds (s.parsingFailure ref) := by
  have hu := Removes.updateAddress h (s ref).address (segment_punishPeer 200)
  exact (disconnect_spec hu.inv ha).after hu

theorem handleError_impl_spec (id : ℕ) (error : ErrorCode) :
    s.Succeeds (s.handleError_impl id error) := by
  unfold handleError_impl
  cases hl : s.peers.lookup id with
  | none => exact .same h
  | some ref =>
    have ha := (h.object id ref hl).2
    obtain ⟨t, banned, ht, hr, hsame⟩ := punishPeer_spec h ha error.handling.2
    dsimp only
    rw [ht]
    cases banned with
    | true => exact ⟨t, by simp, hr⟩
    | false =>
      by_cases hremove : error.handling.1
      · have ht' : (t ref).Alive := by
          rw [hsame rfl]
          exact ha
        obtain ⟨s', hs', hr'⟩ := removePeer_spec hr.inv ht'
        exact ⟨s', by simp [hremove, hs'], hr.trans hr'⟩
      · exact ⟨t, by simp [hremove], hr⟩

omit h

/-- The timer finds no peer to disconnect. -/
def NoneKicked (now : ℕ) (s : ConnectionManager Tx) : Prop :=
  ∀ id ∈ s.connectedPeers, ∀ ref, s.peers.lookup id = some ref → (s ref).kick now = false

theorem cronPeer_spec (h : Agree s) (hk : NoneKicked now s) (id : ℕ) :
    Removes s (s.cronPeer now id) ∧ NoneKicked now (s.cronPeer now id) := by
  unfold cronPeer
  cases hl : s.peers.lookup id with
  | none => exact ⟨.refl h, hk⟩
  | some ref =>
    obtain ⟨rfl, ha⟩ := h.object id ref hl
    dsimp only
    by_cases hkick : (s ref).kick now
    · rw [if_pos hkick]
      have hne : ∀ i ∈ s.connectedPeers, i ≠ (s ref).connectionId := fun i hi he => by
        rw [hk i hi ref (he ▸ hl)] at hkick
        cases hkick
      have hkept : ∀ i ∈ s.connectedPeers,
          (s.peers.erase (s ref).connectionId).lookup i = s.peers.lookup i := fun i hi => by
        rw [lookup_erase, if_neg (hne i hi)]
      refine ⟨⟨h.without ha (fun i hi => ⟨hi, hne i hi⟩) s.peerDisconnected, fun i => ?_, fun i =>
        ?_, fun i => ?_⟩, fun i hi r hr => ?_⟩
      · rw [lookup_erase]
        split_ifs
        · exact .inr rfl
        · exact .inl rfl
      · refine ⟨fun hi => ⟨hi, ?_⟩, And.left⟩
        rw [hkept i hi]
        exact h.connected i hi
      · have hi : ¬ (i ∈ s.connectedPeers ∧ (s.peers.erase (s ref).connectionId).lookup i = none) :=
          fun hi =>
          h.connected i hi.1 (hkept i hi.1 ▸ hi.2)
        rw [if_neg hi]
        rfl
      · rw [hkept i hi] at hr
        have hrr : r ≠ ref := fun he => hne i hi (by rw [← he, (h.object i r hr).1])
        rw [setPeer_objects, if_neg hrr]
        exact hk i hi r hr
    · rw [if_neg hkick]
      exact ⟨.refl h, hk⟩

/-- The timer, if it disconnects nobody. -/
theorem cron_spec (h : Agree s) (hk : NoneKicked now s) : Removes s (s.cron now) := by
  unfold cron
  generalize s.peers.keys = ids
  induction ids generalizing s with
  | nil => exact .refl h
  | cons id ids ih =>
    obtain ⟨hr, hk'⟩ := cronPeer_spec h hk id
    exact hr.trans (ih hr.inv hk')

/-- The step left the tables alone. -/
structure Same (s s' : ConnectionManager Tx) : Prop where
  inv : Agree s'
  peers : s'.peers = s.peers
  connected : s'.connectedPeers = s.connectedPeers
  calls : s'.peerDisconnected = s.peerDisconnected

theorem foldl_choose_mem {f : Option α × β → α → Option α × β}
    (hf : ∀ best a, f best a = best ∨ (f best a).1 = some a) (l : List α) (start : Option α × β) {a : α}
    (h : (l.foldl f start).1 = some a) : start.1 = some a ∨ a ∈ l := by
  induction l generalizing start with
  | nil => exact .inl h
  | cons x l ih =>
    rcases ih (f start x) h with h | h
    · rcases hf start x with hx | hx
      · exact .inl (hx ▸ h)
      · exact .inr (some.inj (hx.symm.trans h) ▸ mem_cons_self)
    · exact .inr (mem_cons_of_mem _ h)

theorem bestSegment_mem {thisId : ℕ} (h : s.bestSegment thisId = some segment) :
    segment ∈ s.segments := by
  refine (foldl_choose_mem (fun best g => ?_) s.segments _ h).resolve_left (by simp)
  split_ifs
  · exact .inr rfl
  · exact .inl rfl

theorem Agree.newSegment (h : Agree s) {addr : ℕ} (hseg : (s.addresses addr).segment = 0) (segment : ℕ) :
    Agree (s.updateAddress addr fun a => { a with segment := segment }) where
  __ := h
  wallet ref g ha hg := by
    obtain ⟨h0, hw⟩ := h.wallet ref g ha hg
    have hne : (s ref).address ≠ addr := fun he => h0 (hw.symm.trans (he ▸ hseg))
    simpa [ConnectionManager.updateAddress, hne] using ⟨h0, hw⟩

section

variable (h : Agree s) (ha : (s ref).Alive)
include h ha

theorem setPrivacySegment_spec (h0 : segment ≠ 0)
    (hseg : (s.addresses (s ref).address).segment = segment) :
    ∃ s', s.setPrivacySegment ref segment = .ok s' ∧ Same s s' := by
  unfold setPrivacySegment
  cases hw : (s ref).segment with
  | none =>
    refine ⟨s.setPeer ref { s ref with segment := some segment }, by simp, ?_, rfl, rfl, rfl⟩
    refine h.setPeer ha ha rfl fun g hg => ?_
    cases hg
    exact ⟨h0, hseg⟩
  | some g =>
    obtain rfl := (h.wallet ref g ha hw).2.symm.trans hseg
    exact ⟨s, by simp, h, rfl, rfl, rfl⟩

theorem assignSegmentToPeer_spec (hseg : (s.addresses (s ref).address).segment = 0) :
    ∃ s', s.assignSegmentToPeer ref = .ok s' ∧ Same s s' := by
  have hnone : (s ref).segment = none := by
    cases hw : (s ref).segment with
    | none => rfl
    | some g => exact absurd ((h.wallet ref g ha hw).2.symm.trans hseg) (h.wallet ref g ha hw).1
  have hin : ¬ ∃ id ∈ s.connectedPeers, id ≠ (s ref).connectionId ∧ s.peers.lookup id = none :=
    fun ⟨id, hid, _, hl⟩ => h.connected id hid hl
  rw [assignSegmentToPeer, if_neg hin]
  cases hbest : s.bestSegment (s ref).connectionId with
  | none => exact ⟨s, rfl, h, rfl, rfl, rfl⟩
  | some segment =>
    have h0 := h.segments segment (bestSegment_mem hbest)
    refine ⟨(s.setPeer ref { s ref with segment := some segment }).updateAddress (s ref).address
      fun a => { a with segment := segment }, ?_, ?_, rfl, rfl, rfl⟩
    · simp [setPrivacySegment, hnone, Except.map]
    · refine (h.newSegment hseg segment).setPeer ha ha rfl fun g hg => ?_
      cases hg
      exact ⟨h0, by simp [updateAddress]⟩

/-- A peer gets a segment, if there is one. -/
theorem giveSegment_spec (now : ℕ) : ∃ s', s.giveSegment ref now = .ok s' ∧ Same s s' := by
  unfold giveSegment
  by_cases h0 : (s.addresses (s ref).address).segment = 0
  · rw [if_pos h0]
    split_ifs
    · exact assignSegmentToPeer_spec h ha h0
    · exact ⟨s, rfl, h, rfl, rfl, rfl⟩
  · rw [if_neg h0]
    split_ifs
    · exact setPrivacySegment_spec h ha h0 rfl
    · exact ⟨s, rfl, h, rfl, rfl, rfl⟩

end

/-! ### What an event does to the tables -/

/-- The tables agree, and the download manager was told of the connected peers that left. -/
structure Kept (s s' : ConnectionManager Tx) : Prop where
  inv : Agree s'
  calls : ∀ id, s'.peerDisconnected.count id =
    s.peerDisconnected.count id + if id ∈ s.connectedPeers ∧ s'.peers.lookup id = none then 1 else 0
  stays : ∀ id ∈ s.connectedPeers, s'.peers.lookup id ≠ none → id ∈ s'.connectedPeers

theorem Removes.kept (h : Removes s s') : Kept s s' where
  inv := h.inv
  calls := h.calls
  stays id hid hl := (h.connected id).mpr ⟨hid, hl⟩

/-- A merkleblock with a null merkle root fails an assert of its own; nothing else fails. -/
def Safe (s : ConnectionManager Tx) (r : Except Assert (ConnectionManager Tx)) : Prop :=
  r = .error .createHash ∨ ∃ s', r = .ok s' ∧ Kept s s'

theorem Succeeds.safe {r : Except Assert (ConnectionManager Tx)} (h : s.Succeeds r) : s.Safe r := by
  obtain ⟨t, ht, hr⟩ := h
  exact .inr ⟨t, ht, hr.kept⟩

theorem Kept.of_grows (h : Agree s) (h' : Agree s')
    (hp : ∀ id ∈ s.connectedPeers, s'.peers.lookup id = s.peers.lookup id)
    (hc : s.connectedPeers ⊆ s'.connectedPeers) (hd : s'.peerDisconnected = s.peerDisconnected) :
    Kept s s' where
  inv := h'
  calls id := by
    have hid : ¬ (id ∈ s.connectedPeers ∧ s'.peers.lookup id = none) := fun hid =>
      h.connected id hid.1 (hp id hid.1 ▸ hid.2)
    rw [hd, if_neg hid, Nat.add_zero]
  stays id hid _ := hc hid

theorem Kept.congr (h : Kept s s') (h' : Agree s'') (hp : s''.peers = s'.peers)
    (hc : s''.connectedPeers = s'.connectedPeers)
    (hd : s''.peerDisconnected = s'.peerDisconnected) : Kept s s'' where
  inv := h'
  calls id := by
    rw [hd, hp]
    exact h.calls id
  stays id := by
    rw [hp, hc]
    exact h.stays id

variable (h : Agree s)

include h

theorem Agree.insert (hl : s.peers.lookup id ≠ none) :
    Agree { s with connectedPeers := insert id s.connectedPeers } where
  __ := h
  connected i hi := by
    rcases mem_insert.mp hi with rfl | hi
    · exact hl
    · exact h.connected i hi

/-- The version message of a peer in the table. -/
theorem connectionEstablished_spec (ha : (s ref).Alive) (now : ℕ) :
    ∃ s', s.connectionEstablished ref now = .ok s' ∧ Kept s s' := by
  have hu := Removes.updateAddress h (s ref).address fun a =>
    show ({ a.punishPeer (-100) with services := (s ref).services }).segment = a.segment from rfl
  unfold connectionEstablished
  by_cases hs : (!(s ref).supplies_bloom || !(s ref).supplies_network) = true
  · rw [if_pos hs]
    obtain ⟨s', hs', hr⟩ := removePeer_spec hu.inv ha
    exact ⟨s', hs', (hu.trans hr).kept⟩
  · have hl := h.own ref ha
    obtain ⟨s', hs', hsame⟩ := giveSegment_spec (hu.inv.insert (hl ▸ some_ne_none ref)) ha now
    refine ⟨s', ?_, .of_grows h hsame.inv (fun id _ => by rw [hsame.peers]; rfl) ?_ hsame.calls⟩
    · rw [if_neg hs, if_neg (by simp [updateAddress, hl])]
      exact hs'
    · rw [hsame.connected]
      exact subset_insert _ _

theorem Agree.connect (hl : s.peers.lookup id = none) {p : Peer Tx} (hid : p.connectionId = id)
    (ha : p.Alive) (hseg : p.segment = none) :
    Agree { s.setPeer s.nextObject p with
      nextObject := s.nextObject + 1
      peers := s.peers.insert id s.nextObject } where
  own r hr := by
    rw [setPeer_objects] at hr ⊢
    by_cases hrr : r = s.nextObject
    · rw [if_pos hrr, hid, lookup_insert, if_pos rfl, hrr]
    · rw [if_neg hrr] at hr ⊢
      have hne : (s r).connectionId ≠ id := fun he => by
        have := h.own r hr
        rw [he, hl] at this
        cases this
      rw [lookup_insert, if_neg hne]
      exact h.own r hr
  object i r hr := by
    rw [lookup_insert] at hr
    rw [setPeer_objects]
    split_ifs at hr with hi
    · cases hr
      rw [if_pos rfl, hi]
      exact ⟨hid, ha⟩
    · obtain ⟨hri, hra⟩ := h.object i r hr
      have hrr : r ≠ s.nextObject := fun he => h.fresh r he.ge hra
      rw [if_neg hrr]
      exact ⟨hri, hra⟩
  fresh r hr := by
    have hlt : s.nextObject < r := hr
    rw [setPeer_objects, if_neg hlt.ne']
    exact h.fresh r hlt.le
  connected i hi := by
    rw [lookup_insert]
    split_ifs
    · simp
    · exact h.connected i hi
  segments := h.segments
  wallet r g hr hg := by
    rw [setPeer_objects] at hr hg ⊢
    by_cases hrr : r = s.nextObject
    · rw [if_pos hrr, hseg] at hg
      cases hg
    · rw [if_neg hrr] at hr hg ⊢
      exact h.wallet r g hr hg

theorem connect_kept (id addr now : ℕ) : Kept s (s.connect id addr now) := by
  unfold connect
  split_ifs with hl
  · exact (Removes.refl h).kept
  have hl : s.peers.lookup id = none := by simpa using hl
  have hu := h.updateAddress addr (segment_punishPeer 100)
  refine .of_grows h (hu.connect hl rfl (nofun) rfl) (fun i hi => ?_) (Finset.Subset.refl _) rfl
  have hne : i ≠ id := fun he => h.connected i hi (he ▸ hl)
  rw [lookup_insert, if_neg hne]
  rfl

theorem askedFor_spec (id : ℕ) (items : List Bool) : s.Succeeds (s.askedFor id items) := by
  induction items generalizing s with
  | nil => exact .same h
  | cons isTransaction items ih =>
    cases isTransaction with
    | true => exact ih h
    | false =>
      obtain ⟨t, ht, hr⟩ := punish_spec h id 10
      rw [askedFor, foldlM_cons, if_neg (by decide), ht]
      exact (ih hr.inv).after hr

/-- A sender that is not banned for what it asks is still there. -/
theorem askedFor_of_not_bans (ha : (s ref).Alive) {items : List Bool}
    (hb : (s.addresses (s ref).address).bans (items.count false) = false) :
    ∃ s', s.askedFor (s ref).connectionId items = .ok s' ∧ Removes s s' ∧
      s'.objects ref = s.objects ref := by
  induction items generalizing s with
  | nil => exact ⟨s, rfl, .refl h, rfl⟩
  | cons isTransaction items ih =>
    cases isTransaction with
    | true => exact ih h ha (by simpa using hb)
    | false =>
      rw [count_cons_self, bans, Bool.or_eq_false_iff, decide_eq_false_iff_not] at hb
      have hadr : (s.updateAddress (s ref).address (·.punishPeer 10)).addresses (s ref).address =
          (s.addresses (s ref).address).punishPeer 10 := by simp [updateAddress]
      have ht : s.punish (s ref).connectionId 10 =
          .ok (s.updateAddress (s ref).address (·.punishPeer 10), false) := by
        simp only [punish, h.own ref ha, punishPeer, hadr, if_neg hb.1]
      have hu := Removes.updateAddress h (s ref).address (segment_punishPeer 10)
      obtain ⟨s', hs', hr', hp'⟩ := ih hu.inv ha (by rw [← hadr] at hb; exact hb.2)
      refine ⟨s', ?_, hu.trans hr', hp'⟩
      rw [askedFor, foldlM_cons, if_neg (by decide), ht]
      exact hs'

omit h

variable {hash256 : Bytes → Uint256} {H : BlockHeader → Uint256} {txHash : Tx → Uint256}

/-- Messages for the wallet. -/
theorem walletMessage_spec (h : Agree s) (ha : (s ref).Alive) (env : Surroundings)
    (m : WalletMessage Tx) :
    s.Safe (s.walletMessage hash256 H txHash ref env m) := by
  cases m with
  | tx tx =>
    rw [walletMessage]
    split_ifs
    · exact (Succeeds.same h).safe
    · exact Succeeds.safe ⟨_, rfl, .setPeer h ha ha rfl rfl rfl⟩
  | merkleblock body =>
    rw [walletMessage]
    split_ifs
    · exact (punish_spec h _ _).safe
    generalize (s ref).sync.processMerkleBlock hash256 H env body = result
    obtain ⟨outcome, sync, calls⟩ := result
    have hr : Removes s (s.setPeer ref { s ref with sync := sync }) := .setPeer h ha ha rfl rfl rfl
    cases outcome with
    | assertion => exact .inl rfl
    | punished => exact (punish_spec h _ _).safe
    | parsingException what => exact ((parsingFailure_spec hr.inv (setPeer_alive ha)).after hr).safe
    | done => exact Succeeds.safe ⟨_, rfl, hr⟩

/-- Any message, unless a getdata bans its sender. -/
theorem processMessage_spec (h : Agree s) (now : ℕ) (m : Incoming Tx)
    (hok : ∀ items, m = .getData items false → (s ref).Alive →
      (s.addresses (s ref).address).bans (items.count false) = false) :
    s.Safe (s.processMessage hash256 H txHash ref now m) := by
  unfold processMessage
  by_cases ha : (s ref).status = .ShuttingDown
  · rw [if_pos ha]
    exact (Succeeds.same h).safe
  rw [if_neg ha]
  cases m with
  | version protocolVersion services time complete =>
    cases complete with
    | false => exact (parsingFailure_spec h ha).safe
    | true =>
      have hr := Removes.setPeer h (p := { s ref with
        protocolVersion := protocolVersion
        services := services
        timeOffset := (((now : ℤ) - time) - (now - (s ref).connectTime)).bmod (2 ^ 32) }) ha ha
          rfl rfl rfl
      obtain ⟨t, ht, hk⟩ := connectionEstablished_spec hr.inv (setPeer_alive ha) now
      have hst : Kept s t := ⟨hk.inv, hk.calls, hk.stays⟩
      refine .inr ⟨t.updateAddress (s ref).address (·.successfullyConnected), ?_, ?_⟩
      · dsimp only
        rw [if_pos rfl, ht]
        rfl
      · exact hst.congr (hst.inv.updateAddress _ segment_successfullyConnected) rfl rfl rfl
  | getData items complete =>
    dsimp only
    cases complete with
    | true =>
      obtain ⟨s', hs', hr⟩ := askedFor_spec h (s ref).connectionId items
      exact .inr ⟨s', by rw [hs']; rfl, hr.kept⟩
    | false =>
      obtain ⟨t, ht, hr, hp⟩ := askedFor_of_not_bans h ha (hok items rfl ha)
      rw [ht]
      exact ((parsingFailure_spec hr.inv (hp ▸ ha)).after hr).safe
  | reject complete =>
    cases complete with
    | true => exact (Succeeds.same h).safe
    | false => exact (parsingFailure_spec h ha).safe
  | wallet env message => exact walletMessage_spec h ha env message
  | other => exact (Succeeds.same h).safe

/-- The timer kicks no connected peer, and no sender of a cut getdata is banned first. -/
def Orderly (s : ConnectionManager Tx) : Event Tx → Prop
  | .cron now => NoneKicked now s
  | .message ref _ (.getData items false) => (s ref).Alive →
      (s.addresses (s ref).address).bans (items.count false) = false
  | _ => True

/-- One step: no assert fails but the one of `createHash`. -/
theorem step_spec (h : Agree s) {event : Event Tx} (hok : Orderly s event) :
    s.Safe (s.step hash256 H txHash event) := by
  cases event with
  | connect id addr now => exact .inr ⟨_, rfl, connect_kept h id addr now⟩
  | connected ref now =>
    rw [step]
    split_ifs with ha
    · exact (Succeeds.same h).safe
    · exact Succeeds.safe ⟨_, rfl, .setPeer h ha (nofun) rfl rfl rfl⟩
  | message ref now m =>
    refine processMessage_spec h now m fun items hm ha => ?_
    subst hm
    exact hok ha
  | disconnected ref =>
    rw [step]
    split_ifs with ha
    · exact (Succeeds.same h).safe
    · exact (disconnect_spec h ha).safe
  | disconnect id =>
    rw [step]
    cases hl : s.peers.lookup id with
    | none => exact (Succeeds.same h).safe
    | some ref => exact (disconnect_spec h (h.object id ref hl).2).safe
  | punish id amount => exact (punish_spec h id amount).safe
  | error id code => exact (handleError_impl_spec h id code).safe
  | cron now => exact Succeeds.safe ⟨_, rfl, cron_spec h hok⟩
  | rate addr punishment lastReceivedGoodHeaders =>
    exact Succeeds.safe ⟨_, rfl, .updateAddress h addr fun _ => rfl⟩

theorem agree_start (addresses : ℕ → AddressInfo) {segments : List ℕ}
    (hseg : ∀ segment ∈ segments, segment ≠ 0) :
    Agree ({ addresses := addresses, segments := segments } : ConnectionManager Tx) where
  own ref ha := absurd rfl ha
  object id ref hl := by simp at hl
  fresh ref _ ha := ha rfl
  connected id hid := by simp at hid
  segments := hseg
  wallet ref segment ha := absurd rfl ha

/-- Many steps. -/
theorem agree_of_reached {start : ConnectionManager Tx} (hst : Agree start)
    (h : Reached hash256 H txHash Orderly start s) : Agree s := by
  induction h with
  | refl => exact hst
  | tail _ hstep ih =>
    obtain ⟨event, hok, hstep⟩ := hstep
    rcases step_spec ih hok with he | ⟨t, ht, hk⟩
    · rw [hstep] at he
      cases he
    · rw [hstep] at ht
      cases ht
      exact hk.inv

theorem mapM_ok {ε : Type} {f : α → Except ε β} {l : List α} (h : ∀ a ∈ l, ∃ b, f a = .ok b) :
    ∃ bs, l.mapM f = .ok bs := by
  induction l with
  | nil => exact ⟨[], rfl⟩
  | cons a l ih =>
    obtain ⟨b, hb⟩ := h a mem_cons_self
    obtain ⟨bs, hbs⟩ := ih fun a ha => h a (mem_cons_of_mem _ ha)
    exact ⟨b :: bs, by rw [mapM_cons, hb, hbs]; rfl⟩

theorem connectedPeersList_ok (h : Agree s) : ∃ refs, s.connectedPeersList = .ok refs := by
  refine mapM_ok fun id hid => ?_
  obtain ⟨ref, hl⟩ := ne_none_iff_exists'.mp (h.connected id ((mem_sort _).mp hid))
  exact ⟨ref, by rw [hl]⟩

/-- After orderly events the tables agree, and a connected peer that leaves is reported once. -/
theorem tables_of_reached {addresses : ℕ → AddressInfo} {segments : List ℕ}
    (hseg : ∀ segment ∈ segments, segment ≠ 0)
    (h : Reached hash256 H txHash Orderly { addresses := addresses, segments := segments } s) :
    (∀ id ∈ s.connectedPeers, s.peers.lookup id ≠ none) ∧ (∃ refs, s.connectedPeersList = .ok refs) ∧
      ∀ event, Orderly s event → s.step hash256 H txHash event = .error .createHash ∨
        ∃ s', s.step hash256 H txHash event = .ok s' ∧
          (∀ id, s'.peerDisconnected.count id = s.peerDisconnected.count id +
            if id ∈ s.connectedPeers ∧ s'.peers.lookup id = none then 1 else 0) ∧
          ∀ id ∈ s.connectedPeers, s'.peers.lookup id ≠ none → id ∈ s'.connectedPeers := by
  have hagree := agree_of_reached (agree_start addresses hseg) h
  refine ⟨hagree.connected, connectedPeersList_ok hagree, fun event hok => ?_⟩
  exact (step_spec hagree hok).imp_right fun ⟨s', hs', hk⟩ => ⟨s', hs', hk.calls, hk.stays⟩

def noAddresses : ℕ → AddressInfo := fun _ => {}

def run (events : List (Event Unit)) : Except Assert (ConnectionManager Unit) :=
  events.foldlM (step (fun _ => 0) (fun _ => 0) fun _ => 0) { addresses := noAddresses, segments := [] }

def versionFrom (protocolVersion : ℤ) : List (Event Unit) :=
  [.connect 1 0 1000, .connected 0 1001, .message 0 1002 (.version protocolVersion 5 1002 true)]

theorem run_reached {events : List (Event Unit)} (hok : ∀ event ∈ events, ∀ s, Orderly s event)
    {s : ConnectionManager Unit} (h : run events = .ok s) :
    Reached (fun _ => 0) (fun _ => 0) (fun _ => 0) Orderly
      { addresses := noAddresses, segments := [] } s := by
  unfold run at h
  generalize hst : ({ addresses := noAddresses, segments := [] } : ConnectionManager Unit) = start at h ⊢
  clear hst
  induction events generalizing start with
  | nil =>
    cases h
    exact .refl
  | cons event events ih =>
    obtain ⟨t, ht, h⟩ := Guards.bind_eq_ok_iff.mp h
    refine .head ⟨event, hok event mem_cons_self start, ht⟩ ?_
    exact ih (fun e he => hok e (mem_cons_of_mem _ he)) t h

theorem tables_of_reached_version : ∃ s, run (versionFrom 70015) = .ok s ∧ 1 ∈ s.connectedPeers ∧
    s.peers.lookup 1 ≠ none := by
  have hd : (run (versionFrom 70015)).map (fun s => decide (1 ∈ s.connectedPeers)) = .ok true := by
    decide +kernel
  cases hs : run (versionFrom 70015) with
  | error e =>
    rw [hs] at hd
    cases hd
  | ok s =>
    rw [hs] at hd
    have hmem : 1 ∈ s.connectedPeers := of_decide_eq_true (ok.inj hd)
    have hrch := run_reached (by simp [versionFrom, Orderly]) hs
    exact ⟨s, rfl, hmem, (tables_of_reached (by simp) hrch).1 1 hmem⟩

/-- A peer of protocol version 0 is kicked: its id stays in the set and the next look fails. And a
peer that is banned within a message that is cut short is removed twice. -/
theorem version_zero_and_ban :
    (run (versionFrom 0 ++ [.cron 1032])).map
        (fun s => (decide (1 ∈ s.connectedPeers), s.peers.lookup 1, s.peerDisconnected,
          s.connectedPeersList)) =
      .ok (true, none, [], .error .connectedPeers) ∧
    (run (versionFrom 70015 ++ [.message 0 1003 (.getData (replicate 100 false) false)])).map
        (fun s => s.peerDisconnected) = .error .disconnect := by
  decide +kernel

end ConnectionManager

end FloweeHub.P2P
