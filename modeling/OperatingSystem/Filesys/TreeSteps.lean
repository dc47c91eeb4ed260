import OperatingSystem.Filesys.DirectoryTree

/-!
# The steps that keep the tree of directories

Writes and changes of the access rights leave every directory as it is. A create
adds one leaf to the directory it extends, and an unlink removes one leaf.
-/

namespace OperatingSystem.Filesys

open ByteMemory

variable {area : Area}

namespace DirectoryTree

variable {st st' : Store area} {n : ℕ → ℕ} {entry : ℕ → ℕ → List UInt8 × ℕ}

theorem bytes_apart (h : DirectoryTree st n entry) {i b : ℕ} (htype : (st.inode i).type = .dir)
    (hpos : 0 < n i) (hb : (st.inode i).location 0 ≠ area.blockAddr b) {l : ℕ} (hl : l < 256) :
    (st.inode i).location 0 + l < area.blockAddr b ∨
      area.blockAddr b + 256 ≤ (st.inode i).location 0 + l := by
  obtain ⟨c, -, hblock, -⟩ := h.blocks.firstBlock ((h.directory i htype).2.mapped hpos)
  rw [hblock] at hb ⊢
  have hne : c ≠ b := fun heq ↦ hb (by rw [heq])
  simp only [Area.blockAddr, blockSize]
  omega

theorem write (h : DirectoryTree st n entry) {i : ℕ} {pos pos' ret : ℤ} {input : List UInt8}
    (htakes : TakesOnlyFirst st (st.inode i) pos input.length 'w')
    (hw : writeFile st i pos input 'w' = some (ret, pos', st')) : DirectoryTree st' n entry := by
  by_cases htype : (st.inode i).type = .dir
  · obtain ⟨-, rfl⟩ := writeFile_of_refuses (.inl ⟨rfl, htype⟩) hw
    exact h
  · have hi : i ≠ 0 := by
      rintro rfl
      exact htype h.root
    have hblocks := h.blocks.writeFile htakes hw
    obtain ⟨hothers, ⟨size, loc, bn, lbo, hrecord⟩, -⟩ := writeFile_record hw
    have hkept : ∀ {α : Type} (f : MyInode → α), f (st'.inode i) = f (st.inode i) →
        ∀ j, f (st'.inode j) = f (st.inode j) := by
      intro α f hf j
      by_cases hj : j = i
      · rw [hj, hf]
      · rw [hothers j hj]
    rcases writeFile_space h.blocks hi htakes hw with rfl | ⟨hfree, hspace⟩
    · exact h
    · refine h.of_kept hblocks (hkept _ (by rw [hrecord])) (hkept _ (by rw [hrecord]))
        (hkept _ (by rw [hrecord])) ?_ ?_
      · intro j hj
        have hne : j ≠ i := by
          rintro rfl
          exact htype hj
        rw [hothers j hne]
        exact ⟨rfl, rfl, rfl, rfl⟩
      · intro j hj hn l hl
        have hne : j ≠ i := by
          rintro rfl
          exact htype hj
        exact hspace _ (h.bytes_apart hj hn (hfree j hne) hl)

theorem chmod (h : DirectoryTree st n entry) (i : ℕ) (mode : ℤ) :
    DirectoryTree (st.setInode i { st.inode i with mode := mode }) n entry := by
  have hkept : ∀ {α : Type} (f : MyInode → α),
      f { st.inode i with mode := mode } = f (st.inode i) →
      ∀ j, f ((st.setInode i { st.inode i with mode := mode }).inode j) = f (st.inode j) :=
    fun f hf ↦ Store.update_field f hf
  refine h.of_kept (h.blocks.setInode rfl) (hkept _ rfl) (hkept _ rfl) (hkept _ rfl) ?_ ?_
  · intro j _
    exact ⟨hkept _ rfl j, hkept _ rfl j, hkept _ rfl j, hkept _ rfl j⟩
  · intro j _ _ l _
    rfl

/-- An entry that was written into a directory lies behind the others in a block
that only this directory has. -/
theorem appendEntry (h : DirectoryTree st n entry) {des : ℕ} {pos ret : ℤ} {bytes : List UInt8}
    (htype : (st.inode des).type = .dir) (hdir : DirectoryRecord (st.inode des))
    (hfit : CountersFit st) (hn : n des < 16) (hlen : bytes.length = 16)
    (htakes : TakesOnlyFirst st (st.inode des) (toInt (st.inode des).size) bytes.length 'c')
    (hw : writeFile st des (toInt (st.inode des).size) bytes 'c' = some (ret, pos, st'))
    (hret : ret ≠ ERROR) :
    ∃ b < 2, st'.space = writeBytes st.space (area.blockAddr b + 16 * n des) bytes ∧
      (st'.inode des).location 0 = area.blockAddr b ∧
      (st'.inode des).size = 16 * (n des + 1) ∧
      (st'.inode des).blockNumber = ((16 * (n des + 1) / 256 : ℕ) : ℤ) ∧
      (st'.inode des).lastBlockOffset = ((16 * (n des + 1) % 256 : ℕ) : ℤ) ∧
      EntriesAt st.space (area.blockAddr b) (n des) (entry des) ∧
      ∀ i, i ≠ des → (st.inode i).location 0 ≠ area.blockAddr b := by
  have hat := (h.directory des htype).2
  have hsize := hat.size
  have hgrow : ∀ {ino : MyInode}, ino.size = 16 * n des →
      (ino.grow bytes.length).size = 16 * (n des + 1) ∧
      (ino.grow bytes.length).blockNumber = ((16 * (n des + 1) / 256 : ℕ) : ℤ) ∧
      (ino.grow bytes.length).lastBlockOffset = ((16 * (n des + 1) % 256 : ℕ) : ℤ) := by
    intro ino hino
    have hgrown : (ino.grow bytes.length).size = 16 * (n des + 1) := by
      rw [MyInode.grow_size (by omega), hino, hlen]
      omega
    rw [MyInode.grow_blockNumber, MyInode.grow_lastBlockOffset, hgrown]
    exact ⟨rfl, rfl, rfl⟩
  rcases appendEntry_cases hdir hfit hlen hw with
    ⟨herror, -⟩ | ⟨-, ⟨hloc, hrefuse, rfl⟩ | ⟨hloc, w, hend, hstored⟩⟩
  · exact (hret herror).elim
  · -- the first block of the directory is the first one of all
    have hempty : n des = 0 := by
      by_contra hne
      exact hat.mapped (by omega) hloc
    have hfirst : st.superblock.firstFreeBlock = 1 := by
      rcases htakes with (⟨htype', -⟩ | ⟨-, hrefuse'⟩) | ⟨hneed, -⟩ | ⟨hfirst, -⟩
      · exact absurd htype' (by decide)
      · exact (hrefuse hrefuse').elim
      · exact (hneed.first hloc).elim
      · exact hfirst
    have hbn := (hdir.empty hloc).2
    have hinstalled : ((st.installDirect des).inode des).size = 16 * n des := by
      rw [Store.installDirect, Store.setInode_inode]
      exact hsize
    obtain ⟨hsize', hbn', hlbo'⟩ := hgrow hinstalled
    rw [hfirst, storeEntry_inode]
    refine ⟨1, by omega, by rw [hempty]; rfl, ?_, hsize', hbn', hlbo', ?_, ?_⟩
    · simp [MyInode.grow, Store.installDirect, hbn, hfirst]
    · intro k hk
      omega
    · intro i _ heq
      obtain ⟨b, hb, hblock, hroot, -⟩ := h.blocks.firstBlock
        (heq ▸ area.blockAddr_ne_zero 1 : (st.inode i).location 0 ≠ 0)
      rcases h.blocks.others with hnone | ⟨hzero, -⟩
      · by_cases hi : i = 0
        · rw [hi, h.blocks.root, Area.blockAddr_inj] at heq
          omega
        · rw [hnone i 0 (by omega) fun hik ↦ hi (Prod.mk.inj hik).1] at heq
          exact area.blockAddr_ne_zero 1 heq.symm
      · omega
  · obtain ⟨b, hb, hblock, -, hunique⟩ := h.blocks.firstBlock hloc
    have hptr := endPtr_direct st (show (st.inode des).size < 2048 by omega)
    have hdiv : (st.inode des).size / 256 = 0 := by omega
    have hlow : b < allocatableSpaceSize := by
      simp only [allocatableSpaceSize]
      omega
    rw [hdiv, hblock, addOffset_blockAddr hlow (by omega) (by simp only [blockSize]; omega),
      Int.toNat_natCast] at hptr
    cases hend.symm.trans hptr
    rcases hstored with ⟨-, -, rfl⟩ | ⟨hnull, -⟩
    · have hmod : (st.inode des).size % 256 = 16 * n des := by omega
      rw [storeEntry_inode]
      refine ⟨b, hb, by rw [hmod]; rfl, hblock, hgrow hsize |>.1, hgrow hsize |>.2.1,
        hgrow hsize |>.2.2, ?_, fun i hi heq ↦ hi (hunique i heq)⟩
      rw [← hblock]
      exact hat.entries
    · have hne := area.blockAddr_ne_zero b
      omega

end DirectoryTree

/-- What a create leaves of the records: a free inode became a leaf under a
directory. -/
structure AddsLeaf (st st' : Store area) (des first : ℕ) : Prop where
  lt : first < inodeListNum
  free : ¬ st.InUse first
  type : ∀ i, i ≠ first → (st'.inode i).type = (st.inode i).type
  parentIndex : ∀ i, i ≠ first → (st'.inode i).parentIndex = (st.inode i).parentIndex
  others : ∀ i, i ≠ first → i ≠ des → st'.inode i = st.inode i
  inUse : ∀ i, st'.InUse i ↔ i = first ∨ st.InUse i
  size : (st'.inode first).size = 0
  parent : (st'.inode first).parentIndex = des

theorem addsLeaf_of_phases {st st₁ st' : Store area} {des : ℕ} {pos ret : ℤ}
    {bytes : List UInt8} {mode : ℤ} {type : ObjectType} (hfirstFree : FirstInodeFree st)
    (hdes : st.InUse des) (hw : writeFile st des (toInt (st.inode des).size) bytes 'c' =
      some (ret, pos, st₁)) (ha : allocateInode st₁ des mode type = some st') :
    AddsLeaf st st' des st.superblock.firstFreeInode ∧ st'.inode des = st₁.inode des ∧
      st'.space = st₁.space := by
  obtain ⟨hothers, ⟨size, loc, bn, lbo, hrecord⟩, hfirst⟩ := writeFile_record hw
  obtain ⟨hlt, hinode, -, hspace, -⟩ := allocateInode_eq_some ha
  rw [hfirst] at hlt hinode
  have hfree : ¬ st.InUse st.superblock.firstFreeInode := fun hused ↦ hused.2 (hfirstFree hlt)
  have hne : des ≠ st.superblock.firstFreeInode := fun heq ↦ hfree (heq ▸ hdes)
  have hnew : st'.inode st.superblock.firstFreeInode =
      (st.inode st.superblock.firstFreeInode).renew des mode type := by
    rw [hinode, Function.update_self, hothers _ hne.symm]
  have hkept : ∀ {α : Type} (f : MyInode → α), f (st₁.inode des) = f (st.inode des) →
      ∀ i, i ≠ st.superblock.firstFreeInode → f (st'.inode i) = f (st.inode i) := by
    intro α f hf i hi
    rw [hinode, Function.update_of_ne hi]
    by_cases hi' : i = des
    · rw [hi', hf]
    · rw [hothers i hi']
  refine ⟨⟨hlt, hfree, hkept MyInode.type (by rw [hrecord]),
    hkept MyInode.parentIndex (by rw [hrecord]), ?_, ?_, ?_, ?_⟩, ?_, hspace⟩
  · intro i hi hi'
    rw [hinode, Function.update_of_ne hi, hothers i hi']
  · intro i
    by_cases hi : i = st.superblock.firstFreeInode
    · subst hi
      refine ⟨fun _ ↦ .inl rfl, fun _ ↦ ⟨hlt, ?_⟩⟩
      rw [hnew]
      exact (by decide : 0x100 ≠ 0)
    · simp only [Store.InUse, hkept MyInode.operation (by rw [hrecord]) i hi, hi, false_or]
  · rw [hnew]
    rfl
  · rw [hnew]
    refine toUInt16_of_lt ?_
    have hlow := hdes.1
    simp only [inodeListNum] at hlow
    omega
  · rw [hinode, Function.update_of_ne hne]

namespace DirectoryTree

variable {st st' : Store area} {n : ℕ → ℕ} {entry : ℕ → ℕ → List UInt8 × ℕ}

theorem addLeaf (h : DirectoryTree st n entry) {des first : ℕ} (hleaf : AddsLeaf st st' des first)
    (hblocks : FewBlocks st') (hdes : (st.inode des).type = .dir) {name : List UInt8}
    (hat : DirectoryAt st' des (n des + 1) (Function.update (entry des) (n des) (name, first)))
    (hbytes : ∀ i, (st.inode i).type = .dir → i ≠ des → 0 < n i → ∀ l < 256,
      st'.space ((st.inode i).location 0 + l) = st.space ((st.inode i).location 0 + l)) :
    DirectoryTree st' (Function.update (Function.update n des (n des + 1)) first 0)
      (Function.update entry des (Function.update (entry des) (n des) (name, first))) := by
  have hold : ∀ {i}, st.InUse i → i ≠ first := by
    rintro i hi rfl
    exact hleaf.free hi
  have hdesUse := (h.directory des hdes).1
  have hne : des ≠ first := hold hdesUse
  have hroot := hold (h.directory 0 h.root).1
  refine ⟨hblocks, ?_, ?_, ?_, ?_, ?_⟩
  · rw [hleaf.type 0 hroot]
    exact h.root
  · rw [hleaf.parentIndex 0 hroot]
    exact h.rootParent
  · intro i hi
    by_cases hif : i = first
    · subst hif
      rw [Function.update_self]
      exact ⟨(hleaf.inUse _).mpr (.inl rfl), .of_empty _ hleaf.size⟩
    · rw [hleaf.type i hif] at hi
      obtain ⟨hused, hati⟩ := h.directory i hi
      refine ⟨(hleaf.inUse i).mpr (.inr hused), ?_⟩
      rw [Function.update_of_ne hif]
      by_cases hid : i = des
      · subst hid
        rw [Function.update_self, Function.update_self]
        exact hat
      · have hsame := hleaf.others i hif hid
        rw [Function.update_of_ne hid, Function.update_of_ne hid]
        refine hati.congr (by rw [hsame]) (by rw [hsame]) (by rw [hsame]) (by rw [hsame])
          (hbytes i hi hid) ?_
        intro k hk
        obtain ⟨-, hchild, hpar⟩ := hati.children k hk
        exact ⟨(hleaf.inUse _).mpr (.inr hchild), (hleaf.parentIndex _ (hold hchild)).trans hpar⟩
  · intro i hi hzero
    by_cases hif : i = first
    · subst hif
      rw [hleaf.parent, hleaf.type des hne, Function.update_of_ne hne, Function.update_self,
        Function.update_self]
      exact ⟨hdes, n des, by omega, by rw [Function.update_self]⟩
    · have hused := ((hleaf.inUse i).mp hi).resolve_left hif
      obtain ⟨hpar, k, hk, hindex⟩ := h.listed i hused hzero
      have hparNe := hold (h.parent_inUse hused hzero)
      rw [hleaf.parentIndex i hif, hleaf.type _ hparNe, Function.update_of_ne hparNe]
      refine ⟨hpar, k, ?_⟩
      by_cases hpd : (st.inode i).parentIndex = des
      · rw [hpd] at hk hindex ⊢
        have hkn : k ≠ n des := by omega
        rw [Function.update_self, Function.update_self, Function.update_of_ne hkn]
        exact ⟨by omega, hindex⟩
      · rw [Function.update_of_ne hpd, Function.update_of_ne hpd]
        exact ⟨hk, hindex⟩
  · have hkept : ∀ i, st.InUse i → ∃ back, climb st' back i = some 0 := by
      intro i hi
      obtain ⟨back, hback⟩ := h.rooted i hi
      exact climb_of_kept (fun j hj hzero ↦ h.parent_inUse hj hzero)
        (fun j hj ↦ hleaf.parentIndex j (hold hj)) hi hback
    intro i hi
    rcases (hleaf.inUse i).mp hi with rfl | hused
    · obtain ⟨back, hback⟩ := hkept des hdesUse
      refine ⟨back + 1, ?_⟩
      rw [climb, Store.inodeAt_eq hleaf.lt, Option.bind_some, hleaf.parent]
      exact hback
    · exact hkept i hused

theorem create (h : DirectoryTree st n entry) (hdisk : SoundDisk st) {des : ℕ}
    {name : List UInt8} {mode ret : ℤ} {type : ObjectType} {fresh : ℕ → UInt8}
    (hdes : (st.inode des).type = .dir) (hn : n des < 16) (hname : name ≠ [])
    (hnul : (0 : UInt8) ∉ name) (hlength : name.length ≤ 13)
    (hnew : ∀ k < n des, (entry des k).1 ≠ name)
    (htakes : (DiskOp.create des name mode type fresh).TakesOnlyFirst st)
    (hcreate : createEntry st des name mode type fresh = some (ret, st')) :
    ∃ n' entry', DirectoryTree st' n' entry' ∧
      EntriesKept st (fun _ ↦ True) n n' entry entry' := by
  have hrun : (DiskOp.create des name mode type fresh).run st = some st' := by
    rw [DiskOp.run, hcreate]
    rfl
  have hblocks := h.blocks.run htakes hrun
  obtain ⟨ret', pos, st₁, hw, hend⟩ := createEntry_cases hcreate
  have hlen := length_entryBytes hlength st.superblock.firstFreeInode fresh
  have hdir := hdisk.directories des hdes
  rcases hend with ⟨rfl, -, rfl⟩ | ⟨hret, -, ha⟩
  · rcases appendEntry_cases hdir hdisk.counters hlen hw with ⟨-, rfl⟩ | ⟨herror, -⟩
    · exact ⟨n, entry, h, .refl _ _ _ _⟩
    · cases herror
  · obtain ⟨b, hb, hspace₁, hloc, hsize, hbn, hlbo, hentries, hapart⟩ :=
      h.appendEntry hdes hdir hdisk.counters hn hlen htakes.1 hw hret
    obtain ⟨hused, hat⟩ := h.directory des hdes
    obtain ⟨hleaf, hrecord, hspace⟩ := addsLeaf_of_phases hdisk.firstFreeInode hused hw ha
    rw [hspace₁] at hspace
    rw [← hrecord] at hloc hsize hbn hlbo
    have hlt := hleaf.lt
    simp only [inodeListNum] at hlt
    have hchild : ∀ k < n des, (entry des k).2 ≠ st.superblock.firstFreeInode := by
      intro k hk heq
      exact hleaf.free (heq ▸ (hat.children k hk).2.1)
    have hatNew : DirectoryAt st' des (n des + 1)
        (Function.update (entry des) (n des) (name, st.superblock.firstFreeInode)) := by
      refine ⟨by omega, hsize, ?_, fun _ ↦ hbn, fun _ ↦ hlbo, ?_, ?_, ?_, ?_, ?_⟩
      · intro _
        rw [hloc]
        exact area.blockAddr_ne_zero b
      · rw [hloc, hspace]
        exact hentries.append hnul hlength (by omega) fresh
      · intro k hk
        by_cases hkn : k = n des
        · rw [hkn, Function.update_self]
          exact hname
        · rw [Function.update_of_ne hkn]
          exact hat.nonempty k (by omega)
      · exact distinct_append Prod.fst hat.names hnew
      · exact distinct_append Prod.snd hat.inodes hchild
      · intro k hk
        by_cases hkn : k = n des
        · rw [hkn, Function.update_self]
          refine ⟨?_, (hleaf.inUse _).mpr (.inl rfl), hleaf.parent⟩
          intro heq
          apply hleaf.free
          change st.superblock.firstFreeInode = 0 at heq
          rw [heq]
          exact (h.directory 0 h.root).1
        · rw [Function.update_of_ne hkn]
          obtain ⟨hzero, hchildUse, hpar⟩ := hat.children k (by omega)
          exact ⟨hzero, (hleaf.inUse _).mpr (.inr hchildUse),
            (hleaf.parentIndex _ (hchild k (by omega))).trans hpar⟩
    refine ⟨_, _, h.addLeaf hleaf hblocks hdes hatNew ?_, ?_⟩
    · intro i hi hid hpos l hl
      have hfar := h.bytes_apart hi hpos (hapart i hid) hl
      rw [hspace]
      apply writeBytes_of_disjoint
      omega
    · intro i hi k hk _
      have hif : i ≠ st.superblock.firstFreeInode := by
        rintro rfl
        exact hleaf.free (h.directory _ hi).1
      rw [Function.update_of_ne hif]
      by_cases hid : i = des
      · subst hid
        have hkn : k ≠ n i := by omega
        rw [Function.update_self, Function.update_self]
        exact ⟨k, by omega, Function.update_of_ne hkn _ _⟩
      · rw [Function.update_of_ne hid, Function.update_of_ne hid]
        exact ⟨k, hk, rfl⟩

end DirectoryTree

/-- What an unlink leaves of the records: a leaf is gone. -/
structure RemovesLeaf (st st' : Store area) (des leaf : ℕ) : Prop where
  type : ∀ i, i ≠ leaf → (st'.inode i).type = (st.inode i).type
  parentIndex : ∀ i, i ≠ leaf → (st'.inode i).parentIndex = (st.inode i).parentIndex
  others : ∀ i, i ≠ leaf → i ≠ des → st'.inode i = st.inode i
  inUse : ∀ i, st'.InUse i ↔ i ≠ leaf ∧ st.InUse i
  released : (st'.inode leaf).type ≠ .dir

theorem freeBitmap_space {st st' : Store area} {location : ℕ}
    (h : freeBitmap st location = some st') : st'.space = st.space := by
  simp only [freeBitmap] at h
  split at h <;> cases h
  rfl

theorem freeBlock_space {st st' : Store area} {i : ℕ} (h : FewBlocks st) (hi : i ≠ 0)
    (hfree : freeBlock st i = some st') :
    st'.space = st.space ∨ ((st.inode i).location 0 = area.blockAddr 1 ∧
      ∀ x, x < area.blockAddr 1 ∨ area.blockAddr 1 + 256 ≤ x → st'.space x = st.space x) := by
  obtain ⟨i₀, k₀, hk₀, hcases⟩ := h.location_cases
  have hplace : ∀ k < 10, (st.inode i).location k ≠ 0 →
      (i, k) = (i₀, k₀) ∧ (st.inode i).location k = area.blockAddr 1 := by
    intro k hk hne
    exact (hcases i k hk hne).resolve_left fun hroot ↦ hi (Prod.mk.inj hroot.1).1
  have h₈ : (st.inode i).location 8 = 0 := by
    by_contra hne
    have hsame := (Prod.mk.inj (hplace 8 (by omega) hne).1).2
    omega
  by_cases hloc : (st.inode i).location 0 = 0
  · rw [freeBlock_of_null hloc h₈ hfree]
    exact .inl rfl
  · obtain ⟨hfirst, hblock⟩ := hplace 0 (by omega) hloc
    refine .inr ⟨hblock, ?_⟩
    have hone : (st.inode i).location 1 = 0 := by
      by_contra hne
      have hsame := Prod.mk.inj ((hplace 1 (by omega) hne).1.trans hfirst.symm)
      omega
    -- the loop over the direct slots ends after the first block
    have hloop : ∀ {st₁ : Store area},
        freeLoop (fun _ k ↦ some ((st.inode i).location k)) 9 0 st = some st₁ →
        ∀ x, x < area.blockAddr 1 ∨ area.blockAddr 1 + 256 ≤ x → st₁.space x = st.space x := by
      intro st₁ hloop x hx
      rw [freeLoop] at hloop
      obtain ⟨ptr, hptr, hloop⟩ := Option.bind_eq_some_iff.mp hloop
      cases hptr
      rw [if_neg hloc] at hloop
      obtain ⟨st₂, h₂, hloop⟩ := Option.bind_eq_some_iff.mp hloop
      obtain ⟨st₃, h₃, hloop⟩ := Option.bind_eq_some_iff.mp hloop
      rw [freeLoop_of_null (by simp [hone])] at hloop
      cases hloop
      obtain ⟨-, rfl⟩ := Store.storeBytes_eq_some h₂
      rw [freeBitmap_space h₃, hblock]
      apply writeBytes_of_disjoint
      rw [List.length_replicate]
      simp only [blockSize]
      omega
    simp only [freeBlock] at hfree
    split at hfree
    · cases hfree
      exact fun _ _ ↦ rfl
    · obtain ⟨st₁, h₁, hfree⟩ := Option.bind_eq_some_iff.mp hfree
      split at hfree
      · cases hfree
        exact hloop h₁
      · -- there is no single-indirect block to read
        obtain ⟨st₂, h₂, -⟩ := Option.bind_eq_some_iff.mp hfree
        rw [freeLoop] at h₂
        obtain ⟨ptr, hptr, -⟩ := Option.bind_eq_some_iff.mp h₂
        have hnull := (Option.ite_none_right_eq_some.mp hptr).1.1
        have hpos := area.spacePtr_pos
        rw [h₈] at hnull
        omega

namespace DirectoryTree

variable {st st' : Store area} {n : ℕ → ℕ} {entry : ℕ → ℕ → List UInt8 × ℕ}

theorem removeLeaf (h : DirectoryTree st n entry) {des k : ℕ} (hk : k < n des)
    (hleaf : RemovesLeaf st st' des (entry des k).2) (hblocks : FewBlocks st')
    (hdes : (st.inode des).type = .dir)
    (hempty : (st.inode (entry des k).2).type = .dir → n (entry des k).2 = 0)
    (hat : DirectoryAt st' des (n des - 1)
      (Function.update (entry des) k (entry des (n des - 1))))
    (hbytes : ∀ i, (st.inode i).type = .dir → i ≠ des → i ≠ (entry des k).2 → 0 < n i →
      ∀ l < 256, st'.space ((st.inode i).location 0 + l) =
        st.space ((st.inode i).location 0 + l)) :
    DirectoryTree st' (Function.update n des (n des - 1)) (Function.update entry des
      (Function.update (entry des) k (entry des (n des - 1)))) := by
  have hchild := (h.directory des hdes).2.children k hk
  have hparent : ∀ {i}, st.InUse i → i ≠ 0 → (st.inode i).parentIndex ≠ (entry des k).2 := by
    intro i hi hzero heq
    obtain ⟨hpar, l, hl, -⟩ := h.listed i hi hzero
    rw [heq] at hpar hl
    have hnone := hempty hpar
    omega
  refine ⟨hblocks, ?_, ?_, ?_, ?_, ?_⟩
  · rw [hleaf.type 0 hchild.1.symm]
    exact h.root
  · rw [hleaf.parentIndex 0 hchild.1.symm]
    exact h.rootParent
  · intro i hi
    have hil : i ≠ (entry des k).2 := by
      rintro rfl
      exact hleaf.released hi
    rw [hleaf.type i hil] at hi
    obtain ⟨hused, hati⟩ := h.directory i hi
    refine ⟨(hleaf.inUse i).mpr ⟨hil, hused⟩, ?_⟩
    by_cases hid : i = des
    · subst hid
      rw [Function.update_self, Function.update_self]
      exact hat
    · have hsame := hleaf.others i hil hid
      rw [Function.update_of_ne hid, Function.update_of_ne hid]
      refine hati.congr (by rw [hsame]) (by rw [hsame]) (by rw [hsame]) (by rw [hsame])
        (hbytes i hi hid hil) ?_
      intro l hl
      obtain ⟨-, hchildUse, hpar⟩ := hati.children l hl
      have hother : (entry i l).2 ≠ (entry des k).2 := by
        intro heq
        exact hid (hpar.symm.trans (heq ▸ hchild.2.2))
      exact ⟨(hleaf.inUse _).mpr ⟨hother, hchildUse⟩,
        (hleaf.parentIndex _ hother).trans hpar⟩
  · intro i hi hzero
    obtain ⟨hil, hused⟩ := (hleaf.inUse i).mp hi
    obtain ⟨hpar, l, hl, hindex⟩ := h.listed i hused hzero
    rw [hleaf.parentIndex i hil, hleaf.type _ (hparent hused hzero)]
    refine ⟨hpar, ?_⟩
    by_cases hpd : (st.inode i).parentIndex = des
    · rw [hpd] at hl hindex ⊢
      rw [Function.update_self, Function.update_self]
      have hlk : l ≠ k := by
        rintro rfl
        exact hil hindex.symm
      by_cases hlast : l = n des - 1
      · exact ⟨k, by omega, by rw [Function.update_self, ← hlast, hindex]⟩
      · exact ⟨l, by omega, by rw [Function.update_of_ne hlk, hindex]⟩
    · rw [Function.update_of_ne hpd, Function.update_of_ne hpd]
      exact ⟨l, hl, hindex⟩
  · intro i hi
    obtain ⟨hil, hused⟩ := (hleaf.inUse i).mp hi
    obtain ⟨back, hback⟩ := h.rooted i hused
    refine climb_of_kept (S := fun j ↦ st.InUse j ∧ j ≠ (entry des k).2) ?_ ?_ ⟨hused, hil⟩ hback
    · rintro j ⟨hj, -⟩ hzero
      exact ⟨h.parent_inUse hj hzero, hparent hj hzero⟩
    · rintro j ⟨-, hj⟩
      exact hleaf.parentIndex j hj

/-- The unlink of an entry of a directory whose block is not full keeps the
tree, unless the entry is that of a directory with entries. -/
theorem unlink (h : DirectoryTree st n entry) {des k : ℕ} (hdes : (st.inode des).type = .dir)
    (hk : k < n des) (hn : n des ≤ 15)
    (hempty : (st.inode (entry des k).2).type = .dir → n (entry des k).2 = 0)
    (hfree : freeInode st (entry des k).1 (entry des k).2 = some st') :
    ∃ n' entry', DirectoryTree st' n' entry' ∧
      EntriesKept st (· ≠ (entry des k).2) n n' entry entry' := by
  obtain ⟨hdesUse, hat⟩ := h.directory des hdes
  obtain ⟨hzero, hleafUse, hparent⟩ := hat.children k hk
  have hblocks := h.blocks.freeInode hfree
  have hne : des ≠ (entry des k).2 := by
    intro heq
    have hnone := hempty (heq ▸ hdes)
    rw [← heq] at hnone
    omega
  obtain ⟨st₁, ret, st₂, h₁, h₂, hinode, -, hspace, -⟩ := freeInode_eq_some hfree
  have hinode₁ := (FreeFrame.of_freeBlock h₁).inode
  obtain ⟨b, hb, hblock, -, hunique⟩ := h.blocks.firstBlock (hat.mapped (by omega))
  have hlow : b < allocatableSpaceSize := by
    simp only [allocatableSpaceSize]
    omega
  -- the blocks of the other directories are not touched by `free_block`
  have hkept : ∀ i, (st.inode i).type = .dir → i ≠ (entry des k).2 → 0 < n i → ∀ l < 256,
      st₁.space ((st.inode i).location 0 + l) = st.space ((st.inode i).location 0 + l) := by
    intro i hi hil hpos l hl
    rcases freeBlock_space h.blocks hzero h₁ with hsame | ⟨hloc, hsame⟩
    · rw [hsame]
    · apply hsame
      apply h.bytes_apart hi hpos ?_ hl
      intro heq
      obtain ⟨c, -, hc, -, hc'⟩ := h.blocks.firstBlock (hloc ▸ area.blockAddr_ne_zero 1)
      have hcone := Area.blockAddr_inj.mp (hc.symm.trans hloc)
      rw [hcone] at hc'
      exact hil (hc' i heq)
  have hentries : EntriesAt st₁.space (area.blockAddr b) (n des) (entry des) := by
    rw [← hblock]
    exact hat.entries.congr fun l hl ↦ (hkept des hdes hne (by omega) l (by omega)).symm
  rw [hparent] at h₂
  have hrecord₁ : st₁.inode des = st.inode des := by rw [hinode₁]
  have hbn : (st.inode des).blockNumber = 0 := by
    rw [hat.blockNumber (by omega)]
    omega
  have hlbo : (st.inode des).lastBlockOffset = 16 * n des := by
    rw [hat.lastBlockOffset (by omega)]
    omega
  obtain ⟨space, rfl, hremoved, hfar⟩ := freeParentDirectoryEntry_entries hlow hentries hn hk
    hdesUse.1 (by rw [hrecord₁, hat.size]) (by rw [hrecord₁, hblock]) (by rw [hrecord₁, hbn])
    (by rw [hrecord₁, hlbo]) hat.names h₂
  have hdesRecord : st'.inode des = (st.inode des).shrink := by
    rw [hinode, Function.update_of_ne hne, Store.setInode_inode]
    exact congrArg MyInode.shrink hrecord₁
  have hothers : ∀ i, i ≠ (entry des k).2 → i ≠ des → st'.inode i = st.inode i := by
    intro i hil hid
    rw [hinode, Function.update_of_ne hil, Store.setInode_inode_of_ne hid]
    exact congrFun hinode₁ i
  have hfields : ∀ {α : Type} (f : MyInode → α), f (st.inode des).shrink = f (st.inode des) →
      ∀ i, i ≠ (entry des k).2 → f (st'.inode i) = f (st.inode i) := by
    intro α f hf i hil
    by_cases hid : i = des
    · rw [hid, hdesRecord, hf]
    · rw [hothers i hil hid]
  have hreleased : st'.inode (entry des k).2 = (st'.inode (entry des k).2).release := by
    rw [hinode, Function.update_self]
    rfl
  have hleaf : RemovesLeaf st st' des (entry des k).2 := by
    refine ⟨hfields MyInode.type rfl, hfields MyInode.parentIndex rfl, hothers, ?_, ?_⟩
    · intro i
      by_cases hil : i = (entry des k).2
      · subst hil
        refine ⟨fun hused ↦ (hused.2 ?_).elim, fun hused ↦ (hused.1 rfl).elim⟩
        rw [hreleased]
        rfl
      · simp only [Store.InUse, hfields MyInode.operation rfl i hil, hil, ne_eq,
          not_false_eq_true, true_and]
    · rw [hreleased]
      exact (by decide : ObjectType.nul ≠ .dir)
  refine ⟨_, _, h.removeLeaf hk hleaf hblocks hdes hempty
    ⟨by omega, ?_, ?_, ?_, ?_, ?_, ?_, ?_, ?_, ?_⟩ ?_, ?_⟩
  · rw [hdesRecord, MyInode.shrink_size hat.size (by omega) (by omega)]
  · intro _
    rw [hdesRecord]
    exact hat.mapped (by omega)
  · intro _
    rw [hdesRecord]
    change (st.inode des).blockNumber = _
    rw [hbn]
    omega
  · intro _
    rw [hdesRecord]
    change (st.inode des).lastBlockOffset - 16 = _
    rw [hlbo]
    omega
  · rw [hdesRecord, hspace]
    change EntriesAt space ((st.inode des).location 0) _ _
    rw [hblock]
    exact hremoved
  · intro l hl
    obtain ⟨m, hm, -, hle, -⟩ := entry_after_remove (entry des) hk hl
    rw [hle]
    exact hat.nonempty m hm
  · exact distinct_remove Prod.fst hat.names hk
  · exact distinct_remove Prod.snd hat.inodes hk
  · intro l hl
    obtain ⟨m, hm, hmk, hle, -⟩ := entry_after_remove (entry des) hk hl
    obtain ⟨hchildZero, hchildUse, hpar⟩ := hat.children m hm
    have hother : (entry des m).2 ≠ (entry des k).2 := fun heq ↦ hmk (hat.inodes m hm k hk heq)
    rw [hle]
    exact ⟨hchildZero, (hleaf.inUse _).mpr ⟨hother, hchildUse⟩,
      (hleaf.parentIndex _ hother).trans hpar⟩
  · intro i hi hid hil hpos l hl
    rw [hspace]
    change space _ = _
    rw [hfar, hkept i hi hil hpos l hl]
    exact h.bytes_apart hi hpos (fun heq ↦ hid (hunique i heq)) hl
  · intro i _ l hl hother
    by_cases hid : i = des
    · subst hid
      have hlk : l ≠ k := by
        rintro rfl
        exact hother rfl
      rw [Function.update_self, Function.update_self]
      by_cases hlast : l = n i - 1
      · exact ⟨k, by omega, by rw [Function.update_self, hlast]⟩
      · exact ⟨l, by omega, Function.update_of_ne hlk _ _⟩
    · rw [Function.update_of_ne hid, Function.update_of_ne hid]
      exact ⟨l, hl, rfl⟩

end DirectoryTree

end OperatingSystem.Filesys
