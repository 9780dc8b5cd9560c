import FloweeHub.P2P.Blockchain
import FloweeHub.P2P.PartialMerkleTree

/-! The download of merkle blocks from one peer. The matched transactions come in messages of their
own and are handed over, with the header, when all of them are there. Proved is that all that is
matched is handed over, and nothing else. Parsing is left out. -/

namespace FloweeHub.P2P

open List Option

/-! ### The messages of a peer with a wallet -/

/-- The wallet is told of a block and of transactions, and the other side is asked for more. -/
inductive Call (Tx : Type)
  | blockSynched (height : ℤ)
  | newTransactions (header : BlockHeader) (blockHeight : ℤ) (txs : List Tx)
  | newTransaction (tx : Tx)
  | filterLoad
  | mempool
  | getMerkleBlocks (first last : ℤ)

/-- The part of a `Peer` that is about merkle blocks. -/
structure MerkleSync (Tx : Type) where
  bloomUploadHeight : ℤ := 0
  lastReceivedMerkle : ℤ := 0
  merkleDownloadFrom : ℤ := -1
  merkleDownloadTo : ℤ := -1
  merkleBlockHeight : ℤ := -1
  transactionHashes : List Uint256 := []
  blockTransactions : List Tx := []
  merkleHeader : BlockHeader := emptyHeader

/-- What a peer reads of other objects. -/
structure Surroundings where
  chain : Blockchain
  blockHeight : ℤ
  peerHeight : ℤ
  filterChangedHeight : ℤ
  lastBlockSynched : ℤ

/-- The body of a merkleblock; the tree is missing when the message ends before it does. -/
structure MerkleBlock where
  header : BlockHeader
  tree : Option PartialMerkleTree

/-- How a merkleblock is dealt with. -/
inductive Outcome
  | done
  | punished
  | parsingException (what : String)
  | assertion
deriving DecidableEq

namespace MerkleSync

variable {Tx : Type}

/-- The next hundred blocks, after a new filter if that changed. -/
def startMerkleDownload (env : Surroundings) (first : ℤ) (s : MerkleSync Tx) :
    MerkleSync Tx × List (Call Tx) :=
  let changed := s.bloomUploadHeight < env.filterChangedHeight ∧
    env.filterChangedHeight ≤ s.merkleDownloadFrom
  let last := min (first + 100) (min env.peerHeight env.blockHeight)
  ({ s with
      bloomUploadHeight := if changed then env.lastBlockSynched else s.bloomUploadHeight
      merkleDownloadFrom := first
      merkleDownloadTo := last },
    (if changed then [.filterLoad] else []) ++
      if 1 + last - first = 0 then [.mempool] else [.getMerkleBlocks first last])

/-- A block that is next, and what was matched in it. -/
def accept (env : Surroundings) (header : BlockHeader) (height : ℤ) (hashes : List Uint256)
    (s : MerkleSync Tx) :
    MerkleSync Tx × List (Call Tx) :=
  let s := { s with
    transactionHashes := hashes
    merkleHeader := header
    merkleBlockHeight := height
    lastReceivedMerkle := height }
  let next := if s.lastReceivedMerkle = s.merkleDownloadTo then
    s.startMerkleDownload env (s.merkleDownloadTo + 1)
    else (s, [])
  (next.1, .blockSynched height :: next.2)

variable (hash256 : Bytes → Uint256) (createHash : BlockHeader → Uint256)

/-- The branch for a merkleblock; the body is missing when there is no header. -/
def processMerkleBlock (env : Surroundings) (body : Option MerkleBlock) (s : MerkleSync Tx) :
    Outcome × MerkleSync Tx × List (Call Tx) :=
  match body with
  | none => (.parsingException "Out of range", s, [])
  | some ⟨header, tree⟩ =>
    -- `createHash` asserts that the merkle root is not null
    if header.hashMerkleRoot = 0 then (.assertion, s, [])
    else if env.chain.blockHeightFor (createHash header) = -1 then (.punished, s, [])
    else
      match tree with
      | none => (.parsingException "Out of range", s, [])
      | some tree =>
        if tree.root hash256 ≠ header.hashMerkleRoot then
          (.parsingException "Bad merkle tree received",
            { s with transactionHashes := [], merkleBlockHeight := -1 }, [])
        else if s.blockTransactions ≠ [] then
          (.parsingException "Did not receive all promised Txs for MerkleBlock",
            { s with transactionHashes := tree.vMatch hash256 }, [])
        else (.done, s.accept env header (env.chain.blockHeightFor (createHash header))
          (tree.vMatch hash256))

variable (txHash : Tx → Uint256)

/-- A transaction; the last one hands all over. -/
def processTransaction (tx : Tx) (s : MerkleSync Tx) : MerkleSync Tx × List (Call Tx) :=
  if 0 < s.merkleBlockHeight ∧ txHash tx ∈ s.transactionHashes then
    let hashes := s.transactionHashes.erase (txHash tx)
    if hashes = [] then
      ({ s with transactionHashes := hashes, merkleBlockHeight := -1, blockTransactions := [] },
        [.newTransactions s.merkleHeader s.merkleBlockHeight (s.blockTransactions ++ [tx])])
    else ({ s with transactionHashes := hashes, blockTransactions := s.blockTransactions ++ [tx] }, [])
  else (s, [.newTransaction tx])

end MerkleSync

/-- The messages that matter to a wallet. -/
inductive WalletMessage (Tx : Type)
  | merkleblock (body : Option MerkleBlock)
  | tx (tx : Tx)

/-- The peer, which does not look at messages any more once it is shutting down. -/
structure WalletPeer (Tx : Type) where
  shuttingDown : Bool := false
  sync : MerkleSync Tx := {}

section

variable {Tx : Type} (hash256 : Bytes → Uint256) (createHash : BlockHeader → Uint256)
  (txHash : Tx → Uint256)

/-- `none` is a failed assert; a parsing exception shuts the peer down. -/
def WalletPeer.processMessage (env : Surroundings) (p : WalletPeer Tx) :
    WalletMessage Tx → Option (WalletPeer Tx × List (Call Tx))
  | .merkleblock body =>
    if p.shuttingDown then some (p, [])
    else
      match p.sync.processMerkleBlock hash256 createHash env body with
      | (.assertion, _, _) => none
      | (.parsingException _, sync, calls) => some (⟨true, sync⟩, calls)
      | (_, sync, calls) => some (⟨false, sync⟩, calls)
  | .tx tx =>
    if p.shuttingDown then some (p, [])
    else
      let r := p.sync.processTransaction txHash tx
      some (⟨false, r.1⟩, r.2)

/-- A message with the calls it led to. -/
structure Handled (Tx : Type) where
  message : WalletMessage Tx
  calls : List (Call Tx)

/-- The messages of a connection, each of which satisfied `ok` when it came. -/
inductive Connection (ok : Surroundings → WalletPeer Tx → WalletMessage Tx → Prop) :
    List (Handled Tx) → WalletPeer Tx → Prop
  | start : Connection ok [] {}
  | message {log p p' env m calls} : Connection ok log p → ok env p m →
      p.processMessage hash256 createHash txHash env m = some (p', calls) →
      Connection ok (log ++ [⟨m, calls⟩]) p'

end

section

variable {Tx : Type} {hash256 : Bytes → Uint256} {createHash : BlockHeader → Uint256}
  {txHash : Tx → Uint256} {env : Surroundings} {p p' : WalletPeer Tx} {m : WalletMessage Tx}
  {calls : List (Call Tx)} {e : Handled Tx} {log : List (Handled Tx)} {header : BlockHeader}

/-- The merkleblock was accepted: the wallet was told that its block is synched. -/
def Handled.Accepts (e : Handled Tx) (header : BlockHeader) (tree : PartialMerkleTree) : Prop :=
  e.message = .merkleblock (some ⟨header, some tree⟩) ∧ ∃ height, .blockSynched height ∈ e.calls

/-- The wallet got the transaction together with its header. -/
def HandedOver (txHash : Tx → Uint256) (log : List (Handled Tx)) (header : BlockHeader)
    (id : Uint256) : Prop :=
  ∃ e ∈ log, ∃ height txs, .newTransactions header height txs ∈ e.calls ∧ ∃ tx ∈ txs, txHash tx = id

variable (hash256)

/-- When a merkleblock is accepted, the transactions of those before it have been handed over. -/
def NothingHidden (txHash : Tx → Uint256) (log : List (Handled Tx)) : Prop :=
  ∀ before e after, log = before ++ e :: after → ∀ header tree, e.Accepts header tree →
    ∀ e' ∈ before, ∀ header' tree', e'.Accepts header' tree' →
      ∀ id ∈ tree'.vMatch hash256, HandedOver txHash before header' id

/-- What is handed over with a header was matched by an accepted merkleblock for that header. -/
def OnlyMatched (txHash : Tx → Uint256) (log : List (Handled Tx)) : Prop :=
  ∀ before e after, log = before ++ e :: after → ∀ header height txs,
    .newTransactions header height txs ∈ e.calls →
    ∀ tx ∈ txs, ∃ e' ∈ before, ∃ tree, e'.Accepts header tree ∧ txHash tx ∈ tree.vMatch hash256 ∧
      tree.root hash256 = header.hashMerkleRoot

/-- All transactions of the last merkleblock came, or some did, which is noticed. -/
def Complete (createHash : BlockHeader → Uint256) (env : Surroundings) (p : WalletPeer Tx)
    (m : WalletMessage Tx) : Prop :=
  ∀ header tree, m = .merkleblock (some ⟨header, some tree⟩) →
    env.chain.blockHeightFor (createHash header) ≠ -1 →
    tree.root hash256 = header.hashMerkleRoot → p.shuttingDown = false →
      p.sync.transactionHashes = [] ∨ p.sync.blockTransactions ≠ []

variable {hash256}

/-! ### What a message can do -/

/-- Neither a block nor the transactions of one. -/
def Call.Quiet : Call Tx → Prop
  | .blockSynched _ | .newTransactions _ _ _ => False
  | _ => True

/-- All that a message can do to a peer. -/
inductive Did (hash256 : Bytes → Uint256) (createHash : BlockHeader → Uint256) (txHash : Tx → Uint256)
    (env : Surroundings) (p p' : WalletPeer Tx) (m : WalletMessage Tx) (calls : List (Call Tx)) : Prop
  | nothing : (p'.shuttingDown = true ∨ p' = p) → (∀ c ∈ calls, c.Quiet) →
      Did hash256 createHash txHash env p p' m calls
  | accepted (header tree) : m = .merkleblock (some ⟨header, some tree⟩) → p.shuttingDown = false →
      env.chain.blockHeightFor (createHash header) ≠ -1 → tree.root hash256 = header.hashMerkleRoot →
      p.sync.blockTransactions = [] → p'.sync.blockTransactions = [] → p'.sync.merkleHeader = header →
      p'.sync.transactionHashes = tree.vMatch hash256 → (∃ height, .blockSynched height ∈ calls) →
      (∀ c ∈ calls, c.Quiet ∨ ∃ height, c = .blockSynched height) →
        Did hash256 createHash txHash env p p' m calls
  | collected (tx) : m = .tx tx → p.shuttingDown = false → txHash tx ∈ p.sync.transactionHashes →
      p' = ⟨false, { p.sync with
        transactionHashes := p.sync.transactionHashes.erase (txHash tx)
        blockTransactions := p.sync.blockTransactions ++ [tx] }⟩ → calls = [] →
      Did hash256 createHash txHash env p p' m calls
  | handedOver (tx) : m = .tx tx → p.shuttingDown = false → txHash tx ∈ p.sync.transactionHashes →
      p.sync.transactionHashes.erase (txHash tx) = [] →
      p' = ⟨false,
        { p.sync with transactionHashes := [], merkleBlockHeight := -1, blockTransactions := [] }⟩ →
      calls = [.newTransactions p.sync.merkleHeader p.sync.merkleBlockHeight
        (p.sync.blockTransactions ++ [tx])] →
      Did hash256 createHash txHash env p p' m calls

theorem MerkleSync.startMerkleDownload_quiet (env : Surroundings) (first : ℤ) (s : MerkleSync Tx) :
    ∀ c ∈ (s.startMerkleDownload env first).2, c.Quiet := by
  refine forall_mem_append.mpr ⟨?_, ?_⟩
  · split_ifs
    · exact forall_mem_singleton.mpr trivial
    · exact forall_mem_nil _
  · split_ifs <;> exact forall_mem_singleton.mpr trivial

/-- A new block replaces the one that was waited for. -/
theorem MerkleSync.accept_spec (env : Surroundings) (header : BlockHeader) (height : ℤ)
    (hashes : List Uint256) (s : MerkleSync Tx) :
    (s.accept env header height hashes).1.transactionHashes = hashes ∧
      (s.accept env header height hashes).1.merkleHeader = header ∧
      (s.accept env header height hashes).1.blockTransactions = s.blockTransactions ∧
      .blockSynched height ∈ (s.accept env header height hashes).2 ∧
      ∀ c ∈ (s.accept env header height hashes).2, c.Quiet ∨ ∃ height, c = .blockSynched height := by
  unfold accept
  dsimp only
  split_ifs with hl
  · refine ⟨rfl, rfl, rfl, mem_cons_self, fun c hc => ?_⟩
    rcases mem_cons.mp hc with rfl | hc
    · exact .inr ⟨height, rfl⟩
    · exact .inl (startMerkleDownload_quiet _ _ _ c hc)
  · refine ⟨rfl, rfl, rfl, mem_cons_self, fun c hc => .inr ⟨height, ?_⟩⟩
    exact mem_singleton.mp hc

theorem WalletPeer.processMessage_merkleblock {body : Option MerkleBlock} (hs : p.shuttingDown = false)
    (h : p.processMessage hash256 createHash txHash env (.merkleblock body) = some (p', calls)) :
    Did hash256 createHash txHash env p p' (.merkleblock body) calls := by
  rw [processMessage, if_neg (by simp [hs])] at h
  unfold MerkleSync.processMerkleBlock at h
  cases body with
  | none =>
    cases h
    exact .nothing (.inl rfl) (by simp)
  | some block =>
    obtain ⟨header, tree⟩ := block
    dsimp only at h
    by_cases h0 : header.hashMerkleRoot = 0
    · simp [h0] at h
    rw [if_neg h0] at h
    by_cases hcn : env.chain.blockHeightFor (createHash header) = -1
    · rw [if_pos hcn] at h
      cases h
      refine .nothing (.inr ?_) (by simp)
      rw [← hs]
    rw [if_neg hcn] at h
    cases tree with
    | none =>
      cases h
      exact .nothing (.inl rfl) (by simp)
    | some tree =>
      dsimp only at h
      by_cases hroot : tree.root hash256 = header.hashMerkleRoot
      · rw [if_neg (not_not.mpr hroot)] at h
        by_cases hb : p.sync.blockTransactions = []
        · rw [if_neg (not_not.mpr hb)] at h
          cases h
          obtain ⟨hh, hm, hb', hmem, hq⟩ :=
            MerkleSync.accept_spec env header (env.chain.blockHeightFor (createHash header))
            (tree.vMatch hash256) p.sync
          exact .accepted header tree rfl hs hcn hroot hb (hb'.trans hb) hm hh ⟨_, hmem⟩ hq
        · rw [if_pos hb] at h
          cases h
          exact .nothing (.inl rfl) (by simp)
      · rw [if_pos hroot] at h
        cases h
        exact .nothing (.inl rfl) (by simp)

theorem WalletPeer.processMessage_tx {tx : Tx} (hs : p.shuttingDown = false)
    (h : p.processMessage hash256 createHash txHash env (.tx tx) = some (p', calls)) :
    Did hash256 createHash txHash env p p' (.tx tx) calls := by
  rw [processMessage, if_neg (by simp [hs])] at h
  unfold MerkleSync.processTransaction at h
  dsimp only at h
  split_ifs at h with hmem hemp
  · cases h
    exact .handedOver tx rfl hs hmem.2 hemp (by rw [hemp]) rfl
  · cases h
    exact .collected tx rfl hs hmem.2 rfl rfl
  · cases h
    refine .nothing (.inr ?_) fun c hc => ?_
    · rw [← hs]
    · rw [mem_singleton.mp hc]
      trivial

theorem WalletPeer.processMessage_did
    (h : p.processMessage hash256 createHash txHash env m = some (p', calls)) :
    Did hash256 createHash txHash env p p' m calls := by
  cases hs : p.shuttingDown with
  | true =>
    have heq : p = p' ∧ [] = calls := by
      cases m <;> simpa [processMessage, hs] using h
    exact .nothing (.inr heq.1.symm) (by simp [← heq.2])
  | false =>
    cases m with
    | merkleblock body => exact processMessage_merkleblock hs h
    | tx tx => exact processMessage_tx hs h

/-! ### Whole connections -/

/-- What holds of every entry and the log before it still holds with one more entry. -/
theorem forall_split_concat {α : Type} {l : List α} {x : α} {P : List α → α → Prop}
    (h : ∀ before a after, l = before ++ a :: after → P before a) (hx : P l x) :
    ∀ before a after, l ++ [x] = before ++ a :: after → P before a := by
  intro before a after heq
  induction after using reverseRecOn with
  | nil =>
    obtain ⟨rfl, hlast⟩ := append_inj' heq rfl
    obtain rfl := (cons.inj hlast).1
    exact hx
  | append_singleton after y =>
    rw [← cons_append, ← append_assoc] at heq
    exact h before a after (append_inj' heq rfl).1

theorem not_accepts_of_quiet {e : Handled Tx} (h : ∀ c ∈ e.calls, c.Quiet) (header : BlockHeader)
    (tree : PartialMerkleTree) :
    ¬ e.Accepts header tree := fun ⟨_, _, hc⟩ => h _ hc

theorem HandedOver.append {id : Uint256} (h : HandedOver txHash log header id) (e : Handled Tx) :
    HandedOver txHash (log ++ [e]) header id := by
  obtain ⟨e', he', rest⟩ := h
  exact ⟨e', mem_append_left _ he', rest⟩

/-- The transaction was matched by an accepted merkleblock for the header. -/
def Matched (hash256 : Bytes → Uint256) (log : List (Handled Tx)) (header : BlockHeader)
    (id : Uint256) : Prop :=
  ∃ e ∈ log, ∃ tree, e.Accepts header tree ∧ id ∈ tree.vMatch hash256 ∧
    tree.root hash256 = header.hashMerkleRoot

/-- What the peer waits for or has collected was matched. -/
def CollectsMatched (hash256 : Bytes → Uint256) (txHash : Tx → Uint256) (log : List (Handled Tx))
    (p : WalletPeer Tx) :
    Prop :=
  p.shuttingDown = false →
    (∀ id ∈ p.sync.transactionHashes, Matched hash256 log p.sync.merkleHeader id) ∧
      ∀ tx ∈ p.sync.blockTransactions, Matched hash256 log p.sync.merkleHeader (txHash tx)

theorem Matched.append {id : Uint256} (h : Matched hash256 log header id) (e : Handled Tx) :
    Matched hash256 (log ++ [e]) header id := by
  obtain ⟨e', he', rest⟩ := h
  exact ⟨e', mem_append_left _ he', rest⟩

theorem CollectsMatched.message (hc : CollectsMatched hash256 txHash log p)
    (h : Did hash256 createHash txHash env p p' m calls) :
    CollectsMatched hash256 txHash (log ++ [⟨m, calls⟩]) p' := by
  intro hs'
  cases h with
  | nothing hp _ =>
    obtain rfl := hp.resolve_left (by simp [hs'])
    exact ⟨fun id hid => ((hc hs').1 id hid).append _, fun tx htx => ((hc hs').2 tx htx).append _⟩
  | accepted header tree hm hs _ hroot _ hb' hh ht hsync _ =>
    rw [hb', hh, ht]
    refine ⟨fun id hid => ⟨_, mem_append_right _ mem_cons_self, tree, ⟨hm, hsync⟩, hid, hroot⟩, ?_⟩
    simp
  | collected tx hm hs hmem hp hcs =>
    subst hp
    exact ⟨fun id hid => ((hc hs).1 id (mem_of_mem_erase hid)).append _,
      forall_mem_append.mpr ⟨fun t ht => ((hc hs).2 t ht).append _,
        forall_mem_singleton.mpr (((hc hs).1 _ hmem).append _)⟩⟩
  | handedOver tx hm hs hmem hemp hp hcs =>
    subst hp
    simp

theorem OnlyMatched.message (ho : OnlyMatched hash256 txHash log)
    (hc : CollectsMatched hash256 txHash log p)
    (h : Did hash256 createHash txHash env p p' m calls) :
    OnlyMatched hash256 txHash (log ++ [⟨m, calls⟩]) := by
  refine forall_split_concat ho fun header height txs hcall tx htx => ?_
  cases h with
  | nothing _ hq => exact (hq _ hcall).elim
  | accepted _ _ _ _ _ _ _ _ _ _ _ hq =>
    rcases hq _ hcall with hq | ⟨height', hq⟩
    · exact hq.elim
    · cases hq
  | collected _ _ _ _ _ hcs =>
    rw [hcs] at hcall
    cases hcall
  | handedOver last _ hs hmem _ _ hcs =>
    rw [hcs] at hcall
    obtain ⟨rfl, -, rfl⟩ := Call.newTransactions.inj (mem_singleton.mp hcall)
    exact forall_mem_append.mpr ⟨(hc hs).2, forall_mem_singleton.mpr ((hc hs).1 _ hmem)⟩ tx htx

/-- A matched transaction that was not handed over is one the peer waits for or has collected. -/
def Pending (hash256 : Bytes → Uint256) (txHash : Tx → Uint256) (log : List (Handled Tx))
    (p : WalletPeer Tx) : Prop :=
  p.shuttingDown = false → ∀ e ∈ log, ∀ header tree, e.Accepts header tree →
    ∀ id ∈ tree.vMatch hash256, HandedOver txHash log header id ∨ header = p.sync.merkleHeader ∧
      (id ∈ p.sync.transactionHashes ∨ ∃ tx ∈ p.sync.blockTransactions, txHash tx = id)

/-- With nothing to wait for and nothing collected, all was handed over. -/
theorem Pending.handedOver (h : Pending hash256 txHash log p) (hs : p.shuttingDown = false)
    (ht : p.sync.transactionHashes = []) (hb : p.sync.blockTransactions = [])
    {tree : PartialMerkleTree} (he : e ∈ log) (ha : e.Accepts header tree) {id : Uint256}
    (hid : id ∈ tree.vMatch hash256) :
    HandedOver txHash log header id := by
  refine (h hs e he header tree ha id hid).resolve_right fun hw => ?_
  simp [ht, hb] at hw

theorem Complete.empty (hok : Complete hash256 createHash env p m) {tree : PartialMerkleTree}
    (hm : m = .merkleblock (some ⟨header, some tree⟩))
    (hcn : env.chain.blockHeightFor (createHash header) ≠ -1)
    (hroot : tree.root hash256 = header.hashMerkleRoot) (hs : p.shuttingDown = false)
    (hb : p.sync.blockTransactions = []) : p.sync.transactionHashes = [] :=
  (hok header tree hm hcn hroot hs).resolve_right fun h => h hb

theorem NothingHidden.message (hn : NothingHidden hash256 txHash log)
    (hp : Pending hash256 txHash log p) (hok : Complete hash256 createHash env p m)
    (h : Did hash256 createHash txHash env p p' m calls) :
    NothingHidden hash256 txHash (log ++ [⟨m, calls⟩]) := by
  refine forall_split_concat hn fun header tree hacc => ?_
  cases h with
  | nothing _ hq => exact absurd hacc (not_accepts_of_quiet hq header tree)
  | accepted _ _ hm hs hcn hroot hb _ _ _ _ _ =>
    intro e' he' header' tree' ha' id hid
    exact hp.handedOver hs (hok.empty hm hcn hroot hs hb) hb he' ha' hid
  | collected _ hm _ _ _ _ => exact absurd (hm.symm.trans hacc.1) (by simp)
  | handedOver _ hm _ _ _ _ _ => exact absurd (hm.symm.trans hacc.1) (by simp)

theorem Pending.message (hp : Pending hash256 txHash log p) (hok : Complete hash256 createHash env p m)
    (h : Did hash256 createHash txHash env p p' m calls) :
    Pending hash256 txHash (log ++ [⟨m, calls⟩]) p' := by
  intro hs' e he header tree hacc id hid
  rw [mem_append, mem_singleton] at he
  cases h with
  | nothing hpp hq =>
    obtain rfl := hpp.resolve_left (by simp [hs'])
    rcases he with he | rfl
    · exact (hp hs' e he header tree hacc id hid).imp_left fun h => h.append _
    · exact absurd hacc (not_accepts_of_quiet hq header tree)
  | accepted header' tree' hm hs hcn hroot hb _ hh ht _ _ =>
    rcases he with he | rfl
    · exact .inl ((hp.handedOver hs (hok.empty hm hcn hroot hs hb) hb he hacc hid).append _)
    · obtain ⟨rfl, htree⟩ :=
        MerkleBlock.mk.inj (some.inj (WalletMessage.merkleblock.inj (hm.symm.trans hacc.1)))
      cases htree
      exact .inr ⟨hh.symm, .inl (ht ▸ hid)⟩
  | collected tx hm hs hmem hpp hcs =>
    subst hpp
    rcases he with he | rfl
    · refine (hp hs e he header tree hacc id hid).imp (fun h => h.append _)
        (And.imp_right fun hw => ?_)
      rcases hw with hw | ⟨t, ht, hid'⟩
      · by_cases heq : id = txHash tx
        · exact .inr ⟨tx, mem_append_right _ mem_cons_self, heq.symm⟩
        · exact .inl ((mem_erase_of_ne heq).mpr hw)
      · exact .inr ⟨t, mem_append_left _ ht, hid'⟩
    · exact absurd (hm.symm.trans hacc.1) (by simp)
  | handedOver tx hm hs hmem hemp hpp hcs =>
    rcases he with he | rfl
    · refine .inl ?_
      rcases hp hs e he header tree hacc id hid with hw | ⟨rfl, hw⟩
      · exact hw.append _
      -- what was collected is handed over now, and so is the last transaction
      refine ⟨_, mem_append_right _ mem_cons_self, p.sync.merkleBlockHeight,
        p.sync.blockTransactions ++ [tx], ?_, ?_⟩
      · exact hcs ▸ mem_cons_self
      · rcases hw with hw | ⟨t, ht, hid'⟩
        · by_cases heq : id = txHash tx
          · exact ⟨tx, mem_append_right _ mem_cons_self, heq.symm⟩
          · have := (mem_erase_of_ne heq).mpr hw
            simp [hemp] at this
        · exact ⟨t, mem_append_left _ ht, hid'⟩
    · exact absurd (hm.symm.trans hacc.1) (by simp)

/-- In every connection, only matched transactions are handed over. -/
theorem onlyMatched_of_connection {ok : Surroundings → WalletPeer Tx → WalletMessage Tx → Prop}
    (h : Connection hash256 createHash txHash ok log p) :
    OnlyMatched hash256 txHash log ∧ CollectsMatched hash256 txHash log p := by
  induction h with
  | start =>
    refine ⟨fun before e after h => absurd h.symm (by simp), fun _ => ?_⟩
    simp
  | message _ _ hstep ih =>
    have hdid := WalletPeer.processMessage_did hstep
    exact ⟨ih.1.message ih.2 hdid, ih.2.message hdid⟩

theorem pending_of_connection
    (h : Connection hash256 createHash txHash (Complete hash256 createHash) log p) :
    NothingHidden hash256 txHash log ∧ Pending hash256 txHash log p := by
  induction h with
  | start =>
    refine ⟨fun before e after h => absurd h.symm (by simp), fun _ => ?_⟩
    simp
  | message _ hok hstep ih =>
    have hdid := WalletPeer.processMessage_did hstep
    exact ⟨ih.1.message ih.2 hok hdid, ih.2.message hok hdid⟩

/-- Nothing is hidden while no merkleblock is accepted with all transactions of the last one
missing. -/
theorem nothingHidden_of_connection
    (h : Connection hash256 createHash txHash (Complete hash256 createHash) log p) :
    NothingHidden hash256 txHash log ∧ OnlyMatched hash256 txHash log :=
  ⟨(pending_of_connection h).1, (onlyMatched_of_connection h).1⟩

/-- The block at height `n`, with the transaction 7. -/
def oneTx (n : ℕ) : BlockHeader := ⟨1, 0, 7, 0, 0, n⟩

def oneTxHash (header : BlockHeader) : Uint256 := BitVec.ofNat 256 header.nNonce

def oneTxTree (matched : Bool) : PartialMerkleTree := ⟨1, [7], [if matched then 1 else 0]⟩

def oneTxChain : Surroundings where
  chain := {
    longestChain := [oneTx 0, oneTx 1, oneTx 2]
    blockHeight := insertNew (insertNew (insertNew ∅ 0 0) 1 1) 2 2
    tip := ⟨2, 2, 0⟩ }
  blockHeight := 2
  peerHeight := 2
  filterChangedHeight := 0
  lastBlockSynched := 0

def oneTxPeer (height : ℤ) (hashes : List Uint256) (header : BlockHeader) : WalletPeer Uint256 where
  sync :=
    { lastReceivedMerkle := header.nNonce, merkleBlockHeight := height, transactionHashes := hashes
      merkleHeader := header }

def matching : WalletMessage Uint256 := .merkleblock (some ⟨oneTx 1, some (oneTxTree true)⟩)

def following : WalletMessage Uint256 := .merkleblock (some ⟨oneTx 2, some (oneTxTree false)⟩)

theorem matching_accepted :
    ({} : WalletPeer Uint256).processMessage (fun _ => 0) oneTxHash id oneTxChain matching =
    some (oneTxPeer 1 [7] (oneTx 1), [.blockSynched 1]) := rfl

theorem following_accepted (height : ℤ) (hashes : List Uint256) :
    (oneTxPeer height hashes (oneTx 1)).processMessage (fun _ => 0) oneTxHash id oneTxChain following =
      some (oneTxPeer 2 [] (oneTx 2), [.blockSynched 2]) := rfl

/-- A merkleblock that matches, its transaction and the next merkleblock. -/
theorem nothingHidden_of_connection_one : ∃ p, ∃ log : List (Handled Uint256),
    Connection (fun _ => 0) oneTxHash id (Complete (fun _ => 0) oneTxHash) log p ∧ log.length = 3 ∧
      NothingHidden (fun _ => 0) id log ∧ OnlyMatched (fun _ => 0) id log := by
  have htx : (oneTxPeer 1 [7] (oneTx 1)).processMessage (fun _ => 0) oneTxHash id oneTxChain (.tx 7) =
      some (oneTxPeer (-1) [] (oneTx 1), [.newTransactions (oneTx 1) 1 [7]]) := rfl
  have h0 : Connection (fun _ => 0) oneTxHash id (Complete (fun _ => 0) oneTxHash) []
      ({} : WalletPeer Uint256) := .start
  have h1 := h0.message (fun _ _ _ _ _ _ => .inl rfl) matching_accepted
  have h2 := h1.message (fun _ _ h => by cases h) htx
  have h3 := h2.message (fun _ _ _ _ _ _ => .inl rfl) (following_accepted _ _)
  exact ⟨_, _, h3, rfl, nothingHidden_of_connection h3⟩

/-- The transaction of the first merkleblock never comes, and the second is accepted. -/
theorem withheld_transaction_hidden : ∃ p, ∃ log : List (Handled Uint256),
    Connection (fun _ => 0) oneTxHash id (fun _ _ _ => True) log p ∧
      ¬ NothingHidden (fun _ => 0) id log := by
  have h0 : Connection (fun _ => 0) oneTxHash id (fun _ _ _ => True) [] ({} : WalletPeer Uint256) :=
    .start
  refine ⟨_, _, (h0.message trivial matching_accepted).message trivial (following_accepted _ _),
    fun hn => ?_⟩
  have hover := hn [⟨matching, [.blockSynched 1]⟩] ⟨following, [.blockSynched 2]⟩ [] rfl (oneTx 2)
    (oneTxTree false)
    ⟨rfl, 2, mem_cons_self⟩ _ mem_cons_self (oneTx 1) (oneTxTree true) ⟨rfl, 1, mem_cons_self⟩ 7
      (by decide)
  obtain ⟨e, he, height, txs, hcall, -⟩ := hover
  rw [mem_singleton.mp he] at hcall
  cases mem_singleton.mp hcall

end

end FloweeHub.P2P
