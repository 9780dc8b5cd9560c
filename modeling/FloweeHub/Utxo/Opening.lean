import Mathlib.Data.List.Nodup
import FloweeHub.Primitives.Transaction

/-! Opening the database at an older state. A data file means to take the highest info file below a
height, but the search starts with the first one whatever its height, which is looked at again only
when there is a second data file. Proved is when the states that are opened are from below the
height and belong to one block. What is in the data files is left out. -/

namespace FloweeHub.UODB.Opening

open List Nat Option

/-- `loadable` tells that the jump table is found to have the hash that the header says. -/
structure InfoFile where
  index : ℕ
  lastBlockHeight : ℕ
  lastBlockHash : Uint256
  loadable : Bool
deriving DecidableEq, Repr

abbrev MAX_INFO_NUM : ℕ := 20

/-- What is on disk next to a data file: an info file for some of the indexes. -/
structure Disk where
  file : ℕ → Option (ℕ × Uint256 × Bool)

def Disk.validInfoFiles (disk : Disk) : List InfoFile :=
  (range' 1 (MAX_INFO_NUM - 1)).filterMap fun i =>
    (disk.file i).map fun f => ⟨i, f.1, f.2.1, f.2.2⟩

/-- The part of a data file that an info file brings along. -/
structure DataFile where
  disk : Disk
  lastBlockHeight : ℕ := 0
  lastBlockHash : Uint256 := 0

/-- `DataFileCache::load`; whether it succeeds is `info.loadable`. -/
def load (info : InfoFile) (target : DataFile) : DataFile :=
  { target with lastBlockHeight := info.lastBlockHeight, lastBlockHash := info.lastBlockHash }

/-- The state is from before the height. -/
def InfoFile.Below (beforeHeight : ℤ) (info : InfoFile) : Prop :=
  (info.lastBlockHeight : ℤ) < beforeHeight

instance (beforeHeight : ℤ) (info : InfoFile) : Decidable (info.Below beforeHeight) :=
  inferInstanceAs (Decidable ((info.lastBlockHeight : ℤ) < beforeHeight))

variable (beforeHeight : ℤ)

/-- One turn of the search for the highest info file. -/
def higher (highest info : InfoFile) : InfoFile :=
  if highest.lastBlockHeight < info.lastBlockHeight ∧ info.Below beforeHeight then info else highest

/-- The info file that the search takes; it starts with the first one. -/
def highest (first : InfoFile) (rest : List InfoFile) : InfoFile :=
  (first :: rest).foldl (higher beforeHeight) first

/-- The loop of the constructor of `DataFile`, with the info files that are left. -/
def loadHighest (beforeHeight : ℤ) : ℕ → List InfoFile → DataFile → DataFile
  | n + 1, first :: rest, target =>
    let info := highest beforeHeight first rest
    if info.loadable then load info target
    else loadHighest beforeHeight n ((first :: rest).erase info) (load info target)
  | _, _, target => target

/-- A data file is opened with the info file that the search chose. -/
def create (disk : Disk) : DataFile :=
  loadHighest beforeHeight disk.validInfoFiles.length disk.validInfoFiles { disk := disk }

/-- One turn of the search of `openInfo`; the candidate starts at height `-1`. -/
def candidate (targetHeight : ℤ) (best : Option InfoFile) (info : InfoFile) : Option InfoFile :=
  if (info.lastBlockHeight : ℤ) ≤ targetHeight ∧
      best.elim (-1) (fun b => (b.lastBlockHeight : ℤ)) < info.lastBlockHeight then some info
  else best

/-- Another info file, for the height of the other data files. -/
def openInfo (targetHeight : ℤ) (df : DataFile) : Option DataFile :=
  match df.disk.validInfoFiles.foldl (candidate targetHeight) none with
  | none => none
  | some info => if 0 < info.lastBlockHeight ∧ info.loadable then some (load info df) else none

/-- The loop over the data files: the height to go back to when they are not all at one block. -/
def oldestHeight (beforeHeight : ℤ) : ℤ → Uint256 → List DataFile → Option ℤ
  | _, _, [] => none
  | lastBlock, lastBlockId, df :: dfs =>
    if lastBlock = -1 then oldestHeight beforeHeight df.lastBlockHeight df.lastBlockHash dfs
    else if beforeHeight ≤ lastBlock ∨ lastBlock ≠ df.lastBlockHeight ∨
      lastBlockId ≠ df.lastBlockHash then
      some (min (min lastBlock df.lastBlockHeight) (beforeHeight - 1))
    else oldestHeight beforeHeight lastBlock lastBlockId dfs

/-- The loop that looks for a state that all data files have, with the tries that are left. -/
def agree (beforeHeight : ℤ) : ℕ → List DataFile → Except String (List DataFile)
  | 0, _ => .error "Can't find a usable UTXO state"
  | tries + 1, dataFiles =>
    match oldestHeight beforeHeight (-1) 0 dataFiles with
    | none => .ok dataFiles
    | some height =>
      match dataFiles.mapM (openInfo height) with
      | none => .error "Can't find a usable UTXO state"
      | some dataFiles => agree beforeHeight tries dataFiles

/-- A last data file without a block is left out. -/
def dropEmpty (dataFiles : List DataFile) : List DataFile :=
  if 1 < dataFiles.length ∧ dataFiles.getLast?.any (·.lastBlockHeight = 0) then
    dataFiles.dropLast
  else dataFiles

/-- The constructor of `UODBPrivate`. When there is no data file it makes one. -/
def openAll (disks : List Disk) : Except String (List DataFile) :=
  match dropEmpty (disks.map (create beforeHeight)) with
  | [] => .ok [{ disk := ⟨fun _ => none⟩ }]
  | dataFiles => agree beforeHeight 9 dataFiles

/-- `loadOlderState` of a database at `height`. -/
def loadOlderState (height : ℕ) (disks : List Disk) : Except String Bool :=
  (openAll height disks).map fun dataFiles => !dataFiles.getLast?.any (·.lastBlockHeight = height)

/-! ### The order in which a data file tries its info files -/

section Order

variable {k : ℤ} {fs rest : List InfoFile} {a b m x y first : InfoFile}

/-- In the order of their numbers. -/
def Sorted (files : List InfoFile) : Prop := files.Pairwise fun a b => a.index < b.index

theorem Disk.sorted_validInfoFiles (disk : Disk) : Sorted disk.validInfoFiles := by
  refine List.Pairwise.filterMap _ ?_ pairwise_lt_range'
  intro i j hij a ha b hb
  obtain ⟨f, -, rfl⟩ := map_eq_some_iff.mp ha
  obtain ⟨g, -, rfl⟩ := map_eq_some_iff.mp hb
  exact hij

theorem Sorted.eq_of_index (hs : Sorted fs) (ha : a ∈ fs) (hb : b ∈ fs) (hi : a.index = b.index) :
    a = b := by
  have hn : (fs.map InfoFile.index).Nodup := (pairwise_map.mpr hs).imp ne_of_lt
  exact inj_on_of_nodup_map hn ha hb hi

/-- `a`, which is not below the height, is tried before `b`, which is, and none before made it late.
-/
def Overtakes (beforeHeight : ℤ) (files : List InfoFile) (a b : InfoFile) : Prop :=
  a.index < b.index ∧ ∀ g ∈ files, g.index < a.index → g.Below beforeHeight →
    b.lastBlockHeight ≤ g.lastBlockHeight

/-- The file `a` is tried before `b`. -/
inductive Tried (beforeHeight : ℤ) (files : List InfoFile) (a b : InfoFile) : Prop
  | below : a.Below beforeHeight → b.Below beforeHeight →
      b.lastBlockHeight < a.lastBlockHeight ∨
        b.lastBlockHeight = a.lastBlockHeight ∧ a.index < b.index → Tried beforeHeight files a b
  | above : ¬ a.Below beforeHeight → ¬ b.Below beforeHeight → a.index < b.index →
    Tried beforeHeight files a b
  | overtakes : ¬ a.Below beforeHeight → b.Below beforeHeight →
      Overtakes beforeHeight files a b → Tried beforeHeight files a b
  | inTime : a.Below beforeHeight → ¬ b.Below beforeHeight →
      ¬ Overtakes beforeHeight files b a → Tried beforeHeight files a b

variable (h : Tried k fs a b)

include h

theorem Tried.height_le (ha : a.Below k)
    (hb : b.Below k) : b.lastBlockHeight ≤ a.lastBlockHeight := by
  cases h with
  | below _ _ h => omega
  | above na => exact absurd ha na
  | overtakes na => exact absurd ha na
  | inTime _ nb => exact absurd hb nb

theorem Tried.overtakes_of (ha : ¬ a.Below k)
    (hb : b.Below k) : Overtakes k fs a b := by
  cases h with
  | below ha' => exact absurd ha' ha
  | above _ nb => exact absurd hb nb
  | overtakes _ _ h => exact h
  | inTime ha' => exact absurd ha' ha

theorem Tried.not_overtakes_of (ha : a.Below k)
    (hb : ¬ b.Below k) : ¬ Overtakes k fs b a := by
  cases h with
  | below _ hb' => exact absurd hb' hb
  | above na => exact absurd ha na
  | overtakes na => exact absurd ha na
  | inTime _ _ h => exact h

omit h

theorem foldl_higher_above (fs : List InfoFile) (hx : ¬ x.Below k) :
    fs.foldl (higher k) x = x := by
  induction fs with
  | nil => rfl
  | cons y fs ih =>
    have hy : ¬ (x.lastBlockHeight < y.lastBlockHeight ∧ y.Below k) := by
      unfold InfoFile.Below at *
      omega
    rw [foldl_cons, higher, if_neg hy, ih]

/-- From an info file below the height on, the search finds the first of the highest below it. -/
theorem foldl_higher_below (hx : x.Below k) (hs : Sorted (x :: fs)) :
    fs.foldl (higher k) x ∈ x :: fs ∧ (fs.foldl (higher k) x).Below k ∧
      ∀ y ∈ x :: fs, y.Below k →
        y.lastBlockHeight < (fs.foldl (higher k) x).lastBlockHeight ∨
          y.lastBlockHeight = (fs.foldl (higher k) x).lastBlockHeight ∧
            (fs.foldl (higher k) x).index ≤ y.index := by
  induction fs generalizing x with
  | nil => simp [hx]
  | cons z fs ih =>
    obtain ⟨hxz, hxs⟩ := pairwise_cons.mp hs
    rw [foldl_cons, higher]
    by_cases hz : x.lastBlockHeight < z.lastBlockHeight ∧ z.Below k
    · rw [if_pos hz]
      obtain ⟨hm, hb, hall⟩ := ih hz.2 hxs
      refine ⟨mem_cons_of_mem _ hm, hb, fun y hy hyb => ?_⟩
      rcases mem_cons.mp hy with rfl | hy
      · have := hall z mem_cons_self hz.2
        omega
      · exact hall y hy hyb
    · rw [if_neg hz]
      have hsub : (x :: fs).Sublist (x :: z :: fs) := (sublist_cons_self z fs).cons_cons x
      obtain ⟨hm, hb, hall⟩ := ih hx (hs.sublist hsub)
      refine ⟨hsub.subset hm, hb, fun y hy hyb => ?_⟩
      have hx' := hall x mem_cons_self hx
      rcases mem_cons.mp hy with rfl | hy
      · exact hx'
      rcases mem_cons.mp hy with rfl | hy
      · have hle : ¬ x.lastBlockHeight < y.lastBlockHeight := fun h => hz ⟨h, hyb⟩
        have := hxz y mem_cons_self
        omega
      · exact hall y (mem_cons_of_mem _ hy) hyb

theorem highest_eq (k : ℤ) (first : InfoFile) (rest : List InfoFile) :
    highest k first rest = rest.foldl (higher k) first := by
  simp [highest, higher]

theorem highest_first (k : ℤ) (hs : Sorted (first :: rest)) :
    highest k first rest ∈ first :: rest ∧ ∀ y ∈ first :: rest, y ≠ highest k first rest →
        Tried k (first :: rest) (highest k first rest) y := by
  obtain ⟨hfst, -⟩ := pairwise_cons.mp hs
  rw [highest_eq]
  by_cases hb : first.Below k
  · obtain ⟨hm, hmb, hall⟩ := foldl_higher_below hb hs
    refine ⟨hm, fun y hy hne => ?_⟩
    by_cases hyb : y.Below k
    · refine .below hmb hyb ?_
      have hi := mt (hs.eq_of_index hy hm) hne
      have := hall y hy hyb
      omega
    · -- the first info file is lower than what is taken, unless it is itself taken
      refine .inTime hmb hyb fun ⟨hlt, hle⟩ => ?_
      have hyr : y ∈ rest := (mem_cons.mp hy).resolve_left fun h => hyb (h ▸ hb)
      have h1 := hle first mem_cons_self (hfst y hyr) hb
      have h2 := hall first mem_cons_self hb
      have h3 := hfst y hyr
      omega
  · rw [foldl_higher_above rest hb]
    refine ⟨mem_cons_self, fun y hy hne => ?_⟩
    have hlt := hfst y ((mem_cons.mp hy).resolve_left hne)
    by_cases hyb : y.Below k
    · refine .overtakes hb hyb ⟨hlt, fun g hg hgi _ => ?_⟩
      rcases mem_cons.mp hg with rfl | hg
      · exact absurd hgi (lt_irrefl _)
      · exact absurd hgi (lt_asymm (hfst g hg))
    · exact .above hb hyb hlt

/-- Taking out what is tried first does not change the order of the others. -/
theorem overtakes_erase (hm : ∀ y ∈ fs, y ≠ m → Tried k fs m y) (hs : Sorted fs)
    (hb : b ∈ fs.erase m) (hbb : b.Below k) :
    Overtakes k (fs.erase m) a b ↔ Overtakes k fs a b := by
  have hn : fs.Nodup := hs.imp fun h e => absurd (e ▸ h) (lt_irrefl _)
  refine and_congr_right fun _ => ⟨fun h g hg hgi hgb => ?_, fun h g hg => h g (mem_of_mem_erase hg)⟩
  by_cases hgm : g = m
  · subst hgm
    obtain ⟨hne, hb'⟩ := hn.mem_erase_iff.mp hb
    exact (hm b hb' hne).height_le hgb hbb
  · exact h g ((mem_erase_of_ne hgm).mpr hg) hgi hgb

theorem Tried.of_erase (hm : ∀ y ∈ fs, y ≠ m → Tried k fs m y) (hs : Sorted fs)
    (ha : a ∈ fs.erase m) (hb : b ∈ fs.erase m)
    (h : Tried k (fs.erase m) a b) : Tried k fs a b := by
  cases h with
  | below ha' hb' h => exact .below ha' hb' h
  | above ha' hb' h => exact .above ha' hb' h
  | overtakes ha' hb' h => exact .overtakes ha' hb' ((overtakes_erase hm hs hb hb').mp h)
  | inTime ha' hb' h => exact .inTime ha' hb' (mt (overtakes_erase hm hs ha ha').mpr h)

/-- The first of the loadable info files or, when there is none, the last one tried. -/
structure Opened (beforeHeight : ℤ) (files : List InfoFile) (x : InfoFile) : Prop where
  mem : x ∈ files
  first : x.loadable → ∀ y ∈ files, y.loadable → y ≠ x → Tried beforeHeight files x y
  last : ¬ x.loadable → ∀ y ∈ files, ¬ y.loadable ∧ (y ≠ x → Tried beforeHeight files y x)

theorem loadHighest_nil (k : ℤ) (n : ℕ) (target : DataFile) :
    loadHighest k n [] target = target := by
  cases n <;> rfl

theorem exists_opened {n : ℕ} (hn : fs.length ≤ n) (hne : fs ≠ []) (hs : Sorted fs) (target : DataFile) :
    ∃ x, Opened k fs x ∧ loadHighest k n fs target = load x target := by
  induction n generalizing fs target with
  | zero => exact absurd (eq_nil_of_length_eq_zero (le_zero.mp hn)) hne
  | succ n ih =>
    obtain ⟨first, rest, rfl⟩ := exists_cons_of_ne_nil hne
    obtain ⟨hm, hfst⟩ := highest_first k hs
    rw [loadHighest]
    set m := highest k first rest
    by_cases hl : m.loadable
    · exact ⟨m, ⟨hm, fun _ y hy _ => hfst y hy, fun h => absurd hl h⟩, if_pos hl⟩
    rw [if_neg hl]
    have hlen : ((first :: rest).erase m).length ≤ n := by
      rw [length_erase_of_mem hm]
      omega
    by_cases hr : (first :: rest).erase m = []
    · -- nothing is left, so `m` was the only one
      have hsg : ∀ y ∈ first :: rest, y = m := fun y hy => by
        by_contra h
        have := (mem_erase_of_ne h).mpr hy
        simp [hr] at this
      refine ⟨m, ⟨hm, fun h => absurd h hl, fun _ y hy => ?_⟩, ?_⟩
      · exact ⟨hsg y hy ▸ hl, fun h => absurd (hsg y hy) h⟩
      · rw [hr, loadHighest_nil]
    · obtain ⟨x, hx, heq⟩ := ih hlen hr (hs.sublist erase_sublist) (load m target)
      have hxs := mem_of_mem_erase hx.mem
      refine ⟨x, ⟨hxs, fun h y hy hyl hne => ?_, fun h y hy => ?_⟩, heq⟩
      · have hym : y ≠ m := fun e => hl (e ▸ hyl)
        have hy' := (mem_erase_of_ne hym).mpr hy
        exact (hx.first h y hy' hyl hne).of_erase hfst hs hx.mem hy'
      · by_cases hym : y = m
        · subst hym
          exact ⟨hl, fun hne => hfst x hxs hne.symm⟩
        · have hy' := (mem_erase_of_ne hym).mpr hy
          exact (hx.last h y hy').imp_right fun ht hne =>
            (ht hne).of_erase hfst hs hy' hx.mem

end Order

/-! ### When the database is opened below the height -/

section Main

variable {k : ℤ} {fs : List InfoFile} {x : InfoFile} {dfs : List DataFile} {disks : List Disk}
  {dfs' : List DataFile} {tries : ℕ}

/-- No loadable one overtakes every one below the height, and when none is loadable one below it
comes last. -/
def OlderFirst (beforeHeight : ℤ) (files : List InfoFile) : Prop :=
  (files = [] → 0 < beforeHeight) ∧
    ∀ x ∈ files, ¬ x.Below beforeHeight →
      (x.loadable → ∃ y ∈ files, y.loadable ∧ y.Below beforeHeight ∧
        ¬ Overtakes beforeHeight files x y) ∧
      ((∀ y ∈ files, ¬ y.loadable) → ∃ y ∈ files, y.Below beforeHeight ∧
        Overtakes beforeHeight files x y)

theorem Opened.below_iff (h : Opened k fs x) : x.Below k ↔ OlderFirst k fs := by
  refine ⟨fun hb => ⟨fun he => absurd h.mem (by simp [he]), fun z hz hzb => ?_⟩, fun ho => ?_⟩
  · have hne : z ≠ x := fun e => hzb (e ▸ hb)
    refine ⟨fun hl => ?_, fun hno => ?_⟩
    · have hxl : x.loadable := by
        by_contra hxl
        exact (h.last hxl z hz).1 hl
      exact ⟨x, h.mem, hxl, hb, (h.first hxl z hz hl hne).not_overtakes_of hb hzb⟩
    · exact ⟨x, h.mem, hb, ((h.last (hno x h.mem) z hz).2 hne).overtakes_of hzb hb⟩
  · by_contra hb
    obtain ⟨hloads, hnone⟩ := ho.2 x h.mem hb
    by_cases hl : x.loadable
    · obtain ⟨y, hy, hyl, hyb, hno⟩ := hloads hl
      exact hno ((h.first hl y hy hyl fun e => hb (e ▸ hyb)).overtakes_of hb hyb)
    · obtain ⟨y, hy, hyb, hov⟩ := hnone fun y hy => (h.last hl y hy).1
      exact ((h.last hl y hy).2 fun e => hb (e ▸ hyb)).not_overtakes_of hyb hb hov

/-- There is no info file, or the one it is left with is at height zero. -/
def OpensEmpty (beforeHeight : ℤ) (files : List InfoFile) : Prop :=
  files = [] ∨
    (∃ y ∈ files, y.loadable ∧ y.lastBlockHeight = 0 ∧ ∀ x ∈ files, x.loadable →
      y.index ≤ x.index ∧ ¬ (0 < x.lastBlockHeight ∧ x.Below beforeHeight)) ∨
    (∀ x ∈ files, ¬ x.loadable) ∧ ∃ y ∈ files, y.lastBlockHeight = 0 ∧
      ∀ x ∈ files, 0 < x.lastBlockHeight ∧ x.Below beforeHeight ∨ x.index ≤ y.index

theorem Opened.height_zero_iff (h : Opened k fs x) (hs : Sorted fs) :
    x.lastBlockHeight = 0 ↔ OpensEmpty k fs := by
  refine ⟨fun h0 => .inr ?_, fun he => ?_⟩
  · by_cases hl : x.loadable
    · refine .inl ⟨x, h.mem, hl, h0, fun z hz hzl => ?_⟩
      by_cases hne : z = x
      · exact ⟨hne ▸ le_rfl, fun h => by rw [hne] at h; omega⟩
      cases h.first hl z hz hzl hne with
      | below _ _ h => omega
      | above _ hzb h => exact ⟨h.le, fun h => hzb h.2⟩
      | overtakes hxb hzb _ => unfold InfoFile.Below at *; omega
      | inTime _ hzb h =>
        refine ⟨?_, fun h => hzb h.2⟩
        by_contra hlt
        exact h ⟨by omega, fun g _ _ _ => by omega⟩
    · refine .inr ⟨fun z hz => (h.last hl z hz).1, x, h.mem, h0, fun z hz => ?_⟩
      by_cases hne : z = x
      · exact .inr (hne ▸ le_rfl)
      cases (h.last hl z hz).2 hne with
      | below hzb _ h => exact (h.imp (fun h => ⟨by omega, hzb⟩) fun h => h.2.le)
      | above _ _ h => exact .inr h.le
      | overtakes _ _ h => exact .inr h.1.le
      | inTime hzb hxb _ => unfold InfoFile.Below at *; omega
  · rcases he with he | ⟨y, hy, hyl, hy0, hall⟩ | ⟨hno, y, hy, hy0, hall⟩
    · exact absurd h.mem (by simp [he])
    · by_cases hne : y = x
      · exact hne ▸ hy0
      have hl : x.loadable := by
        by_contra hl
        exact (h.last hl y hy).1 hyl
      obtain ⟨hi, hx⟩ := hall x h.mem hl
      cases h.first hl y hy hyl hne with
      | below hxb _ _ => exact Nat.eq_zero_of_not_pos fun h => hx ⟨h, hxb⟩
      | above _ _ h => omega
      | overtakes _ _ h => exact absurd h.1 (by omega)
      | inTime hxb hyb _ => unfold InfoFile.Below at *; omega
    · by_cases hne : y = x
      · exact hne ▸ hy0
      have hx := h.mem
      have hi := hall x hx
      cases (h.last (hno x hx) y hy).2 hne with
      | below _ _ h => omega
      | above _ hxb h => exact absurd (hi.resolve_left fun h => hxb h.2) (by omega)
      | overtakes hyb hxb _ => unfold InfoFile.Below at *; omega
      | inTime _ hxb h =>
        have hle := hi.resolve_left fun h => hxb h.2
        have hix := mt (hs.eq_of_index hy hx) hne
        exact absurd ⟨by omega, fun g _ _ _ => by omega⟩ h

/-- A data file is new, or opened with one of its info files. -/
theorem create_cases (k : ℤ) (disk : Disk) :
    disk.validInfoFiles = [] ∧ create k disk = { disk := disk } ∨
      ∃ x, Opened k disk.validInfoFiles x ∧ create k disk = load x { disk := disk } := by
  by_cases h : disk.validInfoFiles = []
  · exact .inl ⟨h, by rw [create, h, loadHighest_nil]⟩
  · exact .inr (exists_opened le_rfl h disk.sorted_validInfoFiles _)

theorem create_below_iff (k : ℤ) (disk : Disk) :
    ((create k disk).lastBlockHeight : ℤ) < k ↔ OlderFirst k disk.validInfoFiles := by
  rcases create_cases k disk with ⟨hf, hc⟩ | ⟨x, hx, hc⟩
  · simp [hf, hc, OlderFirst]
  · rw [hc]
    exact hx.below_iff

theorem create_empty_iff (k : ℤ) (disk : Disk) :
    (create k disk).lastBlockHeight = 0 ↔ OpensEmpty k disk.validInfoFiles := by
  rcases create_cases k disk with ⟨hf, hc⟩ | ⟨x, hx, hc⟩
  · simp [hf, hc, OpensEmpty]
  · rw [hc]
    exact hx.height_zero_iff disk.sorted_validInfoFiles

/-! ### Several data files -/

theorem oldestHeight_eq_none {l : List DataFile} {height : ℕ} {hash : Uint256}
    (h : oldestHeight k height hash l = none) :
    ∀ df ∈ l, (height : ℤ) < k ∧ df.lastBlockHeight = height ∧ df.lastBlockHash = hash := by
  induction l with
  | nil => simp
  | cons df l ih =>
    have h1 : (height : ℤ) ≠ -1 := by omega
    rw [oldestHeight, if_neg h1] at h
    split_ifs at h with hd
    push Not at hd
    refine forall_mem_cons.mpr ⟨⟨hd.1, by omega, hd.2.2.symm⟩, ih h⟩

theorem length_of_mapM {α β : Type} {f : α → Option β} {l : List α} {l' : List β}
    (h : l.mapM f = some l') : l'.length = l.length := by
  induction l generalizing l' with
  | nil =>
    cases h
    rfl
  | cons a l ih =>
    rw [mapM_cons] at h
    obtain ⟨b, -, h⟩ := bind_eq_some_iff.mp h
    obtain ⟨bs, hbs, h⟩ := bind_eq_some_iff.mp h
    cases h
    rw [length_cons, length_cons, ih hbs]

theorem agree_eq_ok (h : agree k tries dfs = .ok dfs') :
    oldestHeight k (-1) 0 dfs' = none ∧ dfs'.length = dfs.length := by
  induction tries generalizing dfs with
  | zero => cases h
  | succ tries ih =>
    rw [agree] at h
    cases ho : oldestHeight k (-1) 0 dfs with
    | none =>
      rw [ho] at h
      cases h
      exact ⟨ho, rfl⟩
    | some height =>
      rw [ho] at h
      cases hm : dfs.mapM (openInfo height) with
      | none =>
        simp only [hm] at h
        cases h
      | some opened =>
        simp only [hm] at h
        exact (ih h).imp_right fun hl => hl.trans (length_of_mapM hm)

/-- All data files are at one block below the height. -/
def AtOneBlock (beforeHeight : ℤ) (dfs : List DataFile) : Prop :=
  ∃ (height : ℕ) (hash : Uint256), (height : ℤ) < beforeHeight ∧
    ∀ df ∈ dfs, df.lastBlockHeight = height ∧ df.lastBlockHash = hash

theorem atOneBlock_of_agree (h2 : 1 < dfs.length)
    (h : agree k tries dfs = .ok dfs') : AtOneBlock k dfs' := by
  obtain ⟨ho, hlen⟩ := agree_eq_ok h
  rw [← hlen] at h2
  match dfs', h2 with
  | a :: b :: l, _ =>
    have hall := oldestHeight_eq_none ho
    refine ⟨a.lastBlockHeight, a.lastBlockHash, (hall b mem_cons_self).1, ?_⟩
    exact forall_mem_cons.mpr ⟨⟨rfl, rfl⟩, fun df hdf => (hall df hdf).2⟩

/-- The first data file is the only one that is kept. -/
def Alone (beforeHeight : ℤ) (disks : List Disk) : Prop :=
  disks = [] ∨ ∃ disk, disks = [disk] ∧ OpensEmpty beforeHeight disk.validInfoFiles

theorem openAll_alone (h : Alone k disks) (disk : Disk) :
    openAll k (disk :: disks) = .ok [create k disk] := by
  rcases h with rfl | ⟨d, rfl, hd⟩
  · rfl
  · have h0 := (create_empty_iff k d).mpr hd
    have hdrop : dropEmpty ([disk, d].map (create k)) = [create k disk] := by
      simp [dropEmpty, h0]
    rw [openAll, hdrop]
    rfl

theorem atOneBlock_of_not_alone {disk : Disk} (h : ¬ Alone k disks)
    (hopen : openAll k (disk :: disks) = .ok dfs) :
    AtOneBlock k dfs := by
  have hlen : 1 < (dropEmpty ((disk :: disks).map (create k))).length := by
    match disks, h with
    | [], h => exact absurd (.inl rfl) h
    | [d], h =>
      have h0 : (create k d).lastBlockHeight ≠ 0 := fun h0 =>
        h (.inr ⟨d, rfl, (create_empty_iff k d).mp h0⟩)
      simp [dropEmpty, h0]
    | d :: d' :: l, _ =>
      rw [dropEmpty]
      split_ifs <;> simp
  rw [openAll] at hopen
  split at hopen
  · rename_i he
    rw [he] at hlen
    exact absurd hlen (by decide)
  · exact atOneBlock_of_agree hlen hopen

/-- The database is at one block below the height, and a data file alone at the highest of those. -/
def OpensOlder (beforeHeight : ℤ) (disks : List Disk) : Prop :=
  (∀ dfs, openAll beforeHeight disks = .ok dfs → AtOneBlock beforeHeight dfs) ∧
    ∀ disk, disks = [disk] → (∃ i ∈ disk.validInfoFiles, i.loadable ∧ i.Below beforeHeight) →
      (∃ i ∈ disk.validInfoFiles, i.loadable ∧ i.Below beforeHeight ∧
        (∀ j ∈ disk.validInfoFiles, j.loadable → j.Below beforeHeight →
          j.lastBlockHeight ≤ i.lastBlockHeight) ∧
        openAll beforeHeight disks = .ok [load i { disk := disk }]) ∧
      ∀ height : ℕ, beforeHeight = height → loadOlderState height disks = .ok true

theorem opensOlder_alone (ha : Alone k disks) (disk : Disk) :
    OpensOlder k (disk :: disks) ↔ OlderFirst k disk.validInfoFiles := by
  rw [← create_below_iff]
  refine ⟨fun h => ?_, fun hb => ⟨fun dfs hopen => ?_, ?_⟩⟩
  · obtain ⟨height, hash, hlt, hall⟩ := h.1 _ (openAll_alone ha disk)
    rwa [(hall _ mem_cons_self).1]
  · obtain rfl := Except.ok.inj ((openAll_alone ha disk).symm.trans hopen)
    exact ⟨_, (create k disk).lastBlockHash, hb, by simp⟩
  · rintro d hd ⟨i, hi, hil, -⟩
    obtain ⟨rfl, rfl⟩ := cons.inj hd
    have hopen := openAll_alone ha disk
    refine ⟨?_, fun height hh => ?_⟩
    · rcases create_cases k disk with ⟨hf, -⟩ | ⟨x, hx, hc⟩
      · simp [hf] at hi
      have hxb : x.Below k := by rwa [hc] at hb
      have hxl : x.loadable := by
        by_contra hxl
        exact (hx.last hxl i hi).1 hil
      refine ⟨x, hx.mem, hxl, hxb, fun j hj hjl hjb => ?_, hc ▸ hopen⟩
      by_cases hne : j = x
      · exact hne ▸ le_rfl
      · exact (hx.first hxl j hj hjl hne).height_le hxb hjb
    · subst hh
      have hne : (create height disk).lastBlockHeight ≠ height := by omega
      rw [loadOlderState, hopen]
      simp [Except.map, hne]

/-- Right unless a data file is alone, and then exactly when no info file is in the way. -/
theorem opensOlder_iff (beforeHeight : ℤ) (disk : Disk) (disks : List Disk) :
    OpensOlder beforeHeight (disk :: disks) ↔
      (Alone beforeHeight disks → OlderFirst beforeHeight disk.validInfoFiles) := by
  by_cases ha : Alone beforeHeight disks
  · rw [opensOlder_alone ha]
    exact ⟨fun h _ => h, fun h => h ha⟩
  · refine iff_of_true ⟨fun dfs => atOneBlock_of_not_alone ha, ?_⟩ fun h => absurd h ha
    intro d hd
    exact absurd (.inl (cons.inj hd).2) ha

/-- After the indexes wrapped around: the newest state has the lowest index. -/
def wrapped : Disk where
  file
  | 1 => some (900, 9, true)
  | 18 => some (500, 5, true)
  | 19 => some (702, 7, true)
  | _ => none

/-- The database is at height 900 and has older states, and yet it stays where it is. -/
theorem loadOlderState_wrapped :
    (openAll 900 [wrapped]).map (·.map (·.lastBlockHeight)) = .ok [900] ∧
      loadOlderState 900 [wrapped] = .ok false ∧ ¬ OpensOlder 900 [wrapped] := by
  have hopen : openAll 900 [wrapped] = .ok [load ⟨1, 900, 9, true⟩ { disk := wrapped }] := rfl
  refine ⟨rfl, rfl, fun h => ?_⟩
  obtain ⟨height, hash, hlt, hall⟩ := h.1 _ hopen
  have hh : 900 = height := (hall _ mem_cons_self).1
  omega

end Main

end FloweeHub.UODB.Opening
