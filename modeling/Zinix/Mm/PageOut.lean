import Zinix.Fs.ExactIo
import Zinix.Mm.Fill

/-!
# Writing pages back

A page of a file mapping is read at the place that the image of the file has in the area.
`__release_one_page` writes it as a whole, at an offset that counts from the start of the
area, and with a single write.
-/

namespace Zinix

open Program PageTable Transfer

def PageData.bytes (pg : PageData) : List Byte := (List.range pageSize).map pg.byte

@[simp] theorem PageData.length_bytes (pg : PageData) : pg.bytes.length = pageSize := by
  rw [bytes, List.length_map, List.length_range]

theorem PageData.getElem?_bytes (pg : PageData) {i : ℕ} (hi : i < pageSize) :
    pg.bytes[i]? = some (pg.byte i) := by
  rw [bytes, List.getElem?_map, List.getElem?_range hi]
  rfl

namespace MappedFile

variable {clusterSize : ℕ} {file file' : MappedFile} {buf : List Byte} {off : ℕ}

/-- `write_off`, which writes to the end of a cluster at most. -/
def writeOff (clusterSize : ℕ) (file : MappedFile) (buf : List Byte) (off : ℕ) :
    Option (ℕ × MappedFile) :=
  if off ≤ MAX_FILE_SIZE then
    let offset := min off file.bytes.length
    let n := min (min buf.length (clusterSize - offset % clusterSize)) (MAX_FILE_SIZE - offset)
    some (n, { file with bytes := putAt file.bytes offset (buf.take n) })
  else
    none

theorem writeOff_fatSplitting (h : 0 < clusterSize) {node : FileNode Unit}
    (hfile : node.cls = .file) (hbytes : node.content.bytes = file.bytes) (buf : List Byte)
    (off : ℕ) :
    ∃ node', node.writeOff (fatSplitting clusterSize h) buf off =
        .ok ((file.writeOff clusterSize buf off).map Prod.fst, node') ∧
      ∀ r ∈ file.writeOff clusterSize buf off, node'.content.bytes = r.2.bytes := by
  have hwrite : ((fatSplitting clusterSize h).writeOff node.io node.content buf off).1 =
      (file.writeOff clusterSize buf off).map Prod.fst := by
    simp only [fatSplitting, writeOff, FileBytes.place, FileBytes.size, hbytes]
    split_ifs <;> rfl
  unfold FileNode.writeOff
  rw [hfile]
  simp only
  split
  · next n io heq =>
    rw [heq] at hwrite
    refine ⟨_, by rw [← hwrite]; rfl, ?_⟩
    intro r hr
    rw [Option.mem_def] at hr
    rw [hr] at hwrite
    unfold writeOff at hr
    split_ifs at hr
    cases hr
    simp only [FileBytes.written, FileBytes.place, FileBytes.size, hbytes]
    rw [Option.some.inj hwrite]
  · next io heq =>
    rw [heq] at hwrite
    refine ⟨_, by rw [← hwrite]; rfl, ?_⟩
    intro r hr
    rw [Option.mem_def.mp hr] at hwrite
    cases hwrite

/-- A buffer is written as a whole if it fits into the cluster and the file. -/
theorem writeOff_eq_some : file.writeOff clusterSize buf off = some (buf.length, file') ↔
    off ≤ MAX_FILE_SIZE ∧
      buf.length ≤ clusterSize - min off file.bytes.length % clusterSize ∧
      buf.length ≤ MAX_FILE_SIZE - min off file.bytes.length ∧
      { file with bytes := putAt file.bytes (min off file.bytes.length) buf } = file' := by
  unfold writeOff
  by_cases hoff : off ≤ MAX_FILE_SIZE
  · rw [if_pos hoff]
    simp only [Option.some.injEq, Prod.mk.injEq]
    generalize min off file.bytes.length = o
    constructor
    · rintro ⟨hlen, rfl⟩
      refine ⟨hoff, by omega, by omega, ?_⟩
      rw [hlen, List.take_length]
    · rintro ⟨-, hcluster, hmax, rfl⟩
      have hlen : min (min buf.length (clusterSize - o % clusterSize)) (MAX_FILE_SIZE - o) =
          buf.length := by omega
      rw [hlen, List.take_length]
      exact ⟨rfl, rfl⟩
  · rw [if_neg hoff]
    simp [hoff]

theorem writeOff_inside (hfat : file.bytes.length ≤ MAX_FILE_SIZE)
    (hin : off + buf.length ≤ file.bytes.length)
    (hcluster : off % clusterSize + buf.length ≤ clusterSize) :
    file.writeOff clusterSize buf off =
      some (buf.length, { file with bytes := putAt file.bytes off buf }) := by
  have hoff : min off file.bytes.length = off := by omega
  rw [writeOff_eq_some, hoff]
  exact ⟨by omega, by omega, by omega, rfl⟩

theorem writeOff_eq_self (hfat : file.bytes.length ≤ MAX_FILE_SIZE) (hbuf : 0 < buf.length) :
    file.writeOff clusterSize buf off = some (buf.length, file) ↔
      off % clusterSize + buf.length ≤ clusterSize ∧ off + buf.length ≤ file.bytes.length ∧
        ∀ i < buf.length, file.bytes[off + i]? = buf[i]? := by
  constructor
  · rw [writeOff_eq_some]
    rintro ⟨hmax, hcluster, -, hfile⟩
    have hbytes := congrArg MappedFile.bytes hfile
    obtain ⟨hin, hsame⟩ := (putAt_eq_self_iff (min_le_right _ _)).mp hbytes
    have hoff : min off file.bytes.length = off := by omega
    rw [hoff] at hcluster hin hsame
    exact ⟨by omega, hin, hsame⟩
  · rintro ⟨hcluster, hin, hsame⟩
    rw [writeOff_inside hfat hin hcluster, (putAt_eq_self_iff (by omega)).mpr ⟨hin, hsame⟩]

end MappedFile

namespace Vma

variable {own : Fin 512 → Prop} {p p' : Phys} {pt v : ℕ} {f : Frame} {vma w : Vma}
  {file file' : MappedFile} {clusterSize : ℕ}

/-- The byte `a` of the address space belongs to the image of the file. -/
def Mapped (vma : Vma) (a : ℕ) : Prop := vma.mapStart ≤ a ∧ a < vma.mapEnd

instance (vma : Vma) (a : ℕ) : Decidable (vma.Mapped a) := inferInstanceAs (Decidable (_ ∧ _))

def writeBack (clusterSize : ℕ) (self : Vma) (vaddr : ℕ) (pg : Frame) :
    Program Phys MappedFile := do
  let file ← Checked.unwrap self.file
  let inVma ← subUsize vaddr self.startVaddr
  let off ← addUsize self.fileOff inVma
  let p ← get
  let (writeSize, file) ← Checked.unwrap (file.writeOff clusterSize (p.mem pg).bytes off)
  Checked.ensure (writeSize = pageSize) .assertion
  return file

/-- `__release_one_page`. The area that is returned has the new content of the file. -/
def releaseOnePage (clusterSize : ℕ) (self : Vma) (vaddr : ℕ) : Program Phys Vma := do
  match self.pagesTree.get? vaddr with
  | none => return self
  | some pg =>
    let self := { self with pagesTree := self.pagesTree.filter (· ≠ vaddr) }
    let pt ← Checked.unwrap self.pagetable
    match ← unmapOnePage pt vaddr with
    | .error _ => throw .unwrapNone
    | .ok _ =>
      if self.isAnon then
        throw .todo
      else
        let file ← self.writeBack clusterSize vaddr pg
        modify fun p => p.free pg
        return { self with file := some file }

/-- A page is released if and only if it is written to the file as a whole. -/
theorem Attached.releaseOnePage_sat (h : vma.Attached own p pt v)
    (hget : vma.pagesTree.get? v = some f) (hanon : vma.isAnon = false)
    (hfile : vma.file = some file) (hstart : vma.startVaddr ≤ v) :
    Sat (vma.releaseOnePage clusterSize v) p
      (fun w _ => ∃ file', w.file = some file' ∧
        file.writeOff clusterSize (p.mem f).bytes (vma.fileOff + (v - vma.startVaddr)) =
          some (pageSize, file'))
      (fun _ => ∀ file',
        file.writeOff clusterSize (p.mem f).bytes (vma.fileOff + (v - vma.startVaddr)) ≠
          some (pageSize, file')) := by
  obtain ⟨hlive, htable, hvalid⟩ := h.held f hget
  unfold releaseOnePage
  rw [hget]
  refine Sat.unwrap_bind h.pagetable ?_
  refine (unmapOnePage_mapped h.table h.owned hvalid).bind ?_
  rintro _ p' ⟨rfl, hunmap, -⟩
  have hmem : p'.mem f = p.mem f := hunmap.grows.mem f hlive htable
  refine Sat.ite (fun hc => absurd hc (by simpa [isAnon] using hanon)) fun _ => ?_
  unfold writeBack
  simp only [bind_assoc]
  refine Sat.unwrap_bind hfile ?_
  refine Sat.lift_bind ?_ fun e he => by cases (subUsize_ok hstart).symm.trans he
  intro inVma hin
  cases (subUsize_ok hstart).symm.trans hin
  refine Sat.lift_bind ?_ ?_
  · intro off hoff
    obtain ⟨-, rfl⟩ := addUsize_eq_ok.mp hoff
    refine Sat.get_bind ?_
    rw [hmem]
    cases hwrite : file.writeOff clusterSize (p.mem f).bytes
        (vma.fileOff + (v - vma.startVaddr)) with
    | none => exact sat_throw fun _ hc => by cases hc
    | some r =>
      obtain ⟨n, file'⟩ := r
      refine Sat.unwrap_bind rfl ?_
      refine Sat.ensure_bind ?_ ?_
      · rintro rfl
        exact ⟨file', rfl, rfl⟩
      · rintro hn _ hc
        cases hc
        exact hn rfl
  · intro e he file' hc
    have hover : wordSize ≤ vma.fileOff + (v - vma.startVaddr) := by
      by_contra hlt
      cases (addUsize_ok (Nat.not_le.mp hlt)).symm.trans he
    have hword : MAX_FILE_SIZE < wordSize := by decide
    rw [MappedFile.writeOff, if_neg (by omega)] at hc
    cases hc

theorem Attached.released_iff (h : vma.Attached own p pt v)
    (hget : vma.pagesTree.get? v = some f) (hanon : vma.isAnon = false)
    (hfile : vma.file = some file) (hstart : vma.startVaddr ≤ v) :
    (∃ w p', vma.releaseOnePage clusterSize v p = .ok (w, p') ∧ w.file = some file') ↔
      file.writeOff clusterSize (p.mem f).bytes (vma.fileOff + (v - vma.startVaddr)) =
        some (pageSize, file') := by
  have hsat : Sat (vma.releaseOnePage clusterSize v) p _ _ :=
    h.releaseOnePage_sat hget hanon hfile hstart
  constructor
  · rintro ⟨w, p', hrun, hw⟩
    obtain ⟨file'', hw', hwrite⟩ := hsat.of_ok hrun
    cases hw.symm.trans hw'
    exact hwrite
  · intro hwrite
    cases hrun : vma.releaseOnePage clusterSize v p with
    | error e => exact absurd hwrite (hsat.of_error hrun file')
    | ok r =>
      obtain ⟨file'', hw, hwrite'⟩ := hsat.of_ok hrun
      cases hwrite.symm.trans hwrite'
      exact ⟨r.1, r.2, rfl, hw⟩

/-- The bytes that a page has before a file is read into it. -/
def oldByte (vma : Vma) (p : Phys) (v i : ℕ) : Byte :=
  match vma.pagesTree.get? v with
  | none => 0
  | some f => (p.mem f).byte i

structure PagedIn (own : Fin 512 → Prop) (p p' : Phys) (pt : ℕ) (vma w : Vma) (v : ℕ)
    (f : Frame) : Prop where
  attached : w.Attached own p' pt v
  page : w.pagesTree.get? v = some f
  anon : w.isAnon = vma.isAnon
  file : w.file = vma.file
  start : w.startVaddr = vma.startVaddr
  off : w.fileOff = vma.fileOff
  bytes : ∀ i < pageSize, (p'.mem f).byte i =
    if vma.Mapped (v + i) then vma.byteAt (v + i) else vma.oldByte p v i

theorem isAnon_setDirty (vma : Vma) : vma.setDirty.isAnon = vma.isAnon := by
  have hflag : (vma.vmFlags ||| VmFlags.VM_DIRTY) &&& VmFlags.VM_ANON =
      vma.vmFlags &&& VmFlags.VM_ANON := by
    rw [BitVec.and_comm, BitVec.and_or_distrib_left, BitVec.and_comm]
    exact BitVec.or_zero
  rw [isAnon, isAnon, VmFlags.contains, VmFlags.contains, setDirty, hflag]

theorem PagedIn.touched (h : PagedIn own p p' pt vma w v f) :
    PagedIn own p p' pt vma w.touched v f := by
  unfold Vma.touched
  split_ifs
  · exact ⟨⟨h.attached.table, h.attached.owned, h.attached.pagetable, h.attached.held⟩, h.page,
      (isAnon_setDirty w).trans h.anon, h.file, h.start, h.off, h.bytes⟩
  · exact h

theorem doAllocOnePage_held (hget : vma.pagesTree.get? v = some f) (hanon : vma.isAnon = false)
    (hin : vma.inVma v) (halign : Vaddr.isAlign v) :
    Sat (vma.doAllocOnePage v) p
      (fun r p' => r = (.ok f, vma.touched) ∧
        ∃ pg, vma.filled v (p.mem f) = .ok pg ∧ p' = p.setPage f pg) fun _ => True := by
  unfold doAllocOnePage allocAndFill
  rw [if_neg (by simp [hin, halign]), if_neg (by simp [hanon]), bind_assoc]
  refine Sat.lift_bind (fun piece hpiece => ?_) fun _ _ => trivial
  rw [bind_assoc]
  refine (fastAllocOnePageAndGet_held hin halign hget).bind ?_
  rintro _ p' ⟨rfl, rfl⟩
  cases piece with
  | none =>
    refine sat_pure ⟨rfl, p'.mem f, ?_, ?_⟩
    · rw [filled, hpiece]
      rfl
    · rw [Phys.setPage, replaceAt_eq_self rfl]
  | some piece =>
    simp only [bind_assoc]
    refine Sat.lift_bind (fun buf hbuf => ?_) fun _ _ => trivial
    have hbuf : vma.readPiece piece = .ok buf := hbuf
    refine Sat.modify_bind (sat_pure ⟨rfl, _, ?_, rfl⟩)
    rw [filled, hpiece, Checked.ok_bind]
    simp only [hbuf, Checked.ok_bind]
    rfl

theorem Attached.pagedIn_new (h : vma.Attached own p pt v) (hbacked : vma.Backed)
    (hnone : vma.pagesTree.get? v = none) {pg : PageData} (hpg : vma.backing v = .ok pg)
    (hplaced : Placed own p p' pt v (vmaFlags2PteFlags vma.vmFlags) f pg) :
    PagedIn own p p' pt vma (vma.withPage v f) v f := by
  have hpage : (vma.withPage v f).pagesTree.get? v = some f := by
    rw [withPage, OrdMap.get?_insert, if_pos rfl]
  have hmem := hplaced.mem
  obtain ⟨q, hq, rfl⟩ := hplaced.mapped
  have hatt : (vma.withPage v f).Attached own q pt v := by
    refine ⟨hq.ok, h.owned, h.pagetable, fun g hg => ?_⟩
    cases hpage.symm.trans hg
    have hflags : vma.EntryFlags (vmaFlags2PteFlags vma.vmFlags) := .inl rfl
    refine ⟨hq.grows.live f (Finset.mem_insert_self f p.live),
      h.table.not_mem_of_rewrites hplaced.fresh hq, ?_⟩
    rw [hq.pte v h.owned, if_pos ⟨rfl, rfl, rfl⟩]
    exact hflags.valid f
  refine ⟨hatt.setPage hpage pg, hpage, rfl, rfl, rfl, rfl, ?_⟩
  intro i hi
  rcases hbacked.backing v with ⟨herror, -⟩ | ⟨pg', hpg', hbytes⟩
  · cases herror.symm.trans hpg
  · cases hpg'.symm.trans hpg
    rw [hmem, hbytes i hi, oldByte, hnone]
    split_ifs with hmid
    · rfl
    · exact byteAt_outside hmid

theorem inVma_of_doAllocOnePage (hrun : vma.doAllocOnePage v p = .ok ((.ok f, w), p')) :
    vma.inVma v ∧ Vaddr.isAlign v := by
  by_contra hc
  unfold doAllocOnePage at hrun
  rw [if_pos (by simpa [Classical.or_iff_not_imp_left, and_comm] using hc)] at hrun
  cases hrun

theorem doAllocOnePage_pagedIn (h : vma.Attached own p pt v) (hbacked : vma.Backed)
    (hanon : vma.isAnon = false) (hrun : vma.doAllocOnePage v p = .ok ((.ok f, w), p')) :
    PagedIn own p p' pt vma w v f := by
  have hin := inVma_of_doAllocOnePage hrun
  cases hget : vma.pagesTree.get? v with
  | none =>
    obtain ⟨f', pg, hr, hpg, hplaced⟩ :=
      (doAllocOnePage_placed h.table h.owned h.pagetable hget hin.1 hin.2).of_ok hrun
    cases hr
    exact (h.pagedIn_new hbacked hget hpg hplaced).touched
  | some f' =>
    obtain ⟨hr, pg, hpg, rfl⟩ := (doAllocOnePage_held hget hanon hin.1 hin.2).of_ok hrun
    cases hr
    refine PagedIn.touched ⟨h.setPage hget pg, hget, rfl, rfl, rfl, rfl, ?_⟩
    intro i hi
    rcases hbacked.filled hanon v (p.mem f) with ⟨herror, -⟩ | ⟨pg', hpg', hbytes⟩
    · cases herror.symm.trans hpg
    · cases hpg'.symm.trans hpg
      have hmem : (p.setPage f pg).mem f = pg := replaceAt_self
      rw [hmem, hbytes i hi, oldByte, hget]
      rfl

/-- The file with the byte that belongs at an address replaced. -/
def fileWith (vma : Vma) (a : ℕ) (b : Byte) : Option MappedFile :=
  vma.file.map fun file =>
    { file with bytes := file.bytes.set (vma.fileOff + (a - vma.mapStart)) b }

/-- After a page has been brought in, releasing it leaves the file as it is, and a byte that
was written to the image of the file goes to its place in the file. -/
structure PageOutInverts (clusterSize : ℕ) (vma w : Vma) (v : ℕ) (f : Frame) (p : Phys) :
    Prop where
  clean : ∃ w' p', w.releaseOnePage clusterSize v p = .ok (w', p') ∧ w'.file = vma.file
  dirty : ∀ i < pageSize, vma.Mapped (v + i) → ∀ b, ∃ w' p',
    w.releaseOnePage clusterSize v (p.setPage f ((p.mem f).setByte i b)) = .ok (w', p') ∧
      w'.file = vma.fileWith (v + i) b

/-- The page lies in one cluster of the file, its part of the image lies in the file where it
lies in the area, and the other bytes are those of the file. -/
structure InPlace (clusterSize : ℕ) (vma : Vma) (file : MappedFile) (p : Phys) (v : ℕ) :
    Prop where
  cluster : (vma.fileOff + (v - vma.startVaddr)) % clusterSize + pageSize ≤ clusterSize
  inFile : vma.fileOff + (v - vma.startVaddr) + pageSize ≤ file.bytes.length
  image : ∀ i < pageSize, vma.Mapped (v + i) → vma.fileInVmaOff = 0
  rest : ∀ i < pageSize, ¬vma.Mapped (v + i) →
    file.bytes[vma.fileOff + (v - vma.startVaddr) + i]? = some (vma.oldByte p v i)

/-- The place of a byte of the image, counted from the start of the area. -/
theorem imageOff_eq (hstart : vma.startVaddr ≤ v) {i : ℕ} (hmid : vma.Mapped (v + i)) :
    vma.fileOff + (v + i - vma.mapStart) + vma.fileInVmaOff =
      vma.fileOff + (v - vma.startVaddr) + i := by
  have hlow := hmid.1
  rw [mapStart] at hlow ⊢
  omega

section Inverts

variable (h : PagedIn own p p' pt vma w v f) (hanon : vma.isAnon = false)
  (hfile : vma.file = some file) (hstart : vma.startVaddr ≤ v)

include h hanon hfile hstart

theorem PagedIn.released_iff (pg : PageData) :
    (∃ w' q, w.releaseOnePage clusterSize v (p'.setPage f pg) = .ok (w', q) ∧
        w'.file = some file') ↔
      file.writeOff clusterSize pg.bytes (vma.fileOff + (v - vma.startVaddr)) =
        some (pg.bytes.length, file') := by
  have hmem : (p'.setPage f pg).mem f = pg := replaceAt_self
  rw [(h.attached.setPage h.page pg).released_iff h.page (h.anon.trans hanon)
    (h.file.trans hfile) (h.start.le.trans hstart), h.start, h.off, hmem, pg.length_bytes]

theorem PagedIn.released_clean_iff :
    (∃ w' q, w.releaseOnePage clusterSize v p' = .ok (w', q) ∧ w'.file = some file') ↔
      file.writeOff clusterSize (p'.mem f).bytes (vma.fileOff + (v - vma.startVaddr)) =
        some ((p'.mem f).bytes.length, file') := by
  rw [← h.released_iff hanon hfile hstart, Phys.setPage, replaceAt_eq_self rfl]

variable (hfat : file.bytes.length ≤ MAX_FILE_SIZE)

include hfat

theorem PagedIn.clean_iff :
    (∃ w' q, w.releaseOnePage clusterSize v p' = .ok (w', q) ∧ w'.file = vma.file) ↔
      (vma.fileOff + (v - vma.startVaddr)) % clusterSize + pageSize ≤ clusterSize ∧
        vma.fileOff + (v - vma.startVaddr) + pageSize ≤ file.bytes.length ∧
        ∀ i < pageSize, file.bytes[vma.fileOff + (v - vma.startVaddr) + i]? =
          some ((p'.mem f).byte i) := by
  rw [hfile, h.released_clean_iff hanon hfile hstart,
    MappedFile.writeOff_eq_self hfat (by simp [pageSize]), PageData.length_bytes]
  have hbytes : ∀ i < pageSize, (p'.mem f).bytes[i]? = some ((p'.mem f).byte i) := fun i hi =>
    PageData.getElem?_bytes _ hi
  constructor
  · rintro ⟨hcluster, hin, hread⟩
    exact ⟨hcluster, hin, fun i hi => (hread i hi).trans (hbytes i hi)⟩
  · rintro ⟨hcluster, hin, hread⟩
    exact ⟨hcluster, hin, fun i hi => (hread i hi).trans (hbytes i hi).symm⟩

theorem PagedIn.inverts_of_inPlace (hin : InPlace clusterSize vma file p v) :
    PageOutInverts clusterSize vma w v f p' := by
  have himage : ∀ i < pageSize, vma.Mapped (v + i) →
      vma.fileOff + (v + i - vma.mapStart) = vma.fileOff + (v - vma.startVaddr) + i := by
    intro i hi hmid
    rw [← imageOff_eq hstart hmid, hin.image i hi hmid, Nat.add_zero]
  have hlen := hin.inFile
  have hread : ∀ i < pageSize, file.bytes[vma.fileOff + (v - vma.startVaddr) + i]? =
      some ((p'.mem f).byte i) := by
    intro i hi
    rw [h.bytes i hi]
    split_ifs with hmid
    · rw [byteAt_mapped hfile hanon hmid, himage i hi hmid, List.getD_eq_getElem?_getD,
        List.getElem?_eq_getElem (by omega)]
      rfl
    · exact hin.rest i hi hmid
  refine ⟨(h.clean_iff hanon hfile hstart hfat).mpr ⟨hin.cluster, hlen, hread⟩, ?_⟩
  intro i hi hmid b
  have hbytes : ∀ j < pageSize, ((p'.mem f).setByte i b).bytes[j]? =
      some (if j = i then b else (p'.mem f).byte j) := by
    intro j hj
    rw [PageData.getElem?_bytes _ hj, PageData.byte_setByte _ hi hj]
  have hset : putAt file.bytes (vma.fileOff + (v - vma.startVaddr))
      ((p'.mem f).setByte i b).bytes =
      file.bytes.set (vma.fileOff + (v - vma.startVaddr) + i) b := by
    refine putAt_eq_set (by rwa [PageData.length_bytes]) ?_ ?_
    · rw [hbytes i hi, if_pos rfl]
    · intro j hj hne
      rw [PageData.length_bytes] at hj
      rw [hread j hj, hbytes j hj, if_neg hne]
  rw [fileWith, hfile, Option.map_some, h.released_iff hanon hfile hstart, himage i hi hmid,
    MappedFile.writeOff_inside hfat (by rwa [PageData.length_bytes])
      (by rw [PageData.length_bytes]; exact hin.cluster), hset]

theorem PagedIn.inPlace_of_inverts (hout : PageOutInverts clusterSize vma w v f p') :
    InPlace clusterSize vma file p v := by
  obtain ⟨hcluster, hlen, hread⟩ := (h.clean_iff hanon hfile hstart hfat).mp hout.clean
  refine ⟨hcluster, hlen, ?_, ?_⟩
  · intro i hi hmid
    by_contra hne
    obtain ⟨w', q, hrun, hw'⟩ := hout.dirty i hi hmid ((p'.mem f).byte i + 1)
    rw [fileWith, hfile, Option.map_some] at hw'
    have hwrite := (h.released_iff hanon hfile hstart _).mp ⟨w', q, hrun, hw'⟩
    rw [MappedFile.writeOff_inside hfat (by rwa [PageData.length_bytes])
      (by rwa [PageData.length_bytes])] at hwrite
    have hget := congrArg (·[vma.fileOff + (v - vma.startVaddr) + i]?)
      (congrArg MappedFile.bytes (Prod.mk.inj (Option.some.inj hwrite)).2)
    simp only at hget
    rw [getElem?_putAt (by omega), PageData.length_bytes, if_pos (by omega),
      Nat.add_sub_cancel_left, PageData.getElem?_bytes _ hi, PageData.byte_setByte _ hi hi,
      if_pos rfl, List.getElem?_set_ne (by have := imageOff_eq hstart hmid; omega), hread i hi]
      at hget
    simp at hget
  · intro i hi hmid
    rw [hread i hi, h.bytes i hi, if_neg hmid]

end Inverts

/-- Page-out inverts page-in on the pages that are in place, and on no others. -/
theorem pageOutInverts_iff_inPlace (h : vma.Attached own p pt v) (hanon : vma.isAnon = false)
    (hfile : vma.file = some file) (hfat : file.bytes.length ≤ MAX_FILE_SIZE)
    (hin : vma.fileOff + vma.fileLen ≤ file.bytes.length)
    (hrun : vma.doAllocOnePage v p = .ok ((.ok f, w), p')) :
    PageOutInverts clusterSize vma w v f p' ↔ InPlace clusterSize vma file p v := by
  have hbacked : vma.Backed := fun _ => ⟨file, hfile, Nat.lt_succ_of_le hfat, hin⟩
  have hpaged := doAllocOnePage_pagedIn h hbacked hanon hrun
  have hstart : vma.startVaddr ≤ v := by
    have hin := (inVma_of_doAllocOnePage hrun).1
    simp only [inVma, Bool.and_eq_true, decide_eq_true_eq] at hin
    exact hin.1
  exact ⟨hpaged.inPlace_of_inverts hanon hfile hstart hfat,
    hpaged.inverts_of_inPlace hanon hfile hstart hfat⟩

def smallFile (bytes : List Byte) (pt : ℕ) : Vma :=
  { Vma.empty 0x1000 0x2000 with
    vmFlags := .VM_READ ||| .VM_WRITE ||| .VM_USER
    pagetable := some pt
    file := some ⟨0, bytes⟩
    fileLen := bytes.length }

theorem smallFile_isAnon (bytes : List Byte) (pt : ℕ) : (smallFile bytes pt).isAnon = false := by
  show VmFlags.contains (.VM_READ ||| .VM_WRITE ||| .VM_USER) .VM_ANON = false
  decide

theorem smallFile_pagedIn {bytes : List Byte}
    (hrun : ((newUser >>= fun pt => (smallFile bytes pt).doAllocOnePage 0x1000) .bare).isOk) :
    ∃ pt p f w p', newUser .bare = .ok (pt, p) ∧
      (smallFile bytes pt).Attached userOwn p pt 0x1000 ∧
      (smallFile bytes pt).doAllocOnePage 0x1000 p = .ok ((.ok f, w), p') := by
  obtain ⟨⟨r, p'⟩, hr⟩ := Checked.exists_of_isOk hrun
  rw [bind_apply, Checked.bind_eq_ok] at hr
  obtain ⟨⟨pt, p⟩, hnew, hr⟩ := hr
  have hok := ptOk_newUser_bare hnew
  have hown : userOwn (addrGetPpn2 0x1000) := userOwn_of_lt (by decide)
  have hatt : (smallFile bytes pt).Attached userOwn p pt 0x1000 :=
    ⟨hok, hown, rfl, fun f hf => by cases hf⟩
  obtain ⟨f, -, rfl, -⟩ := (doAllocOnePage_placed hok hown rfl rfl rfl rfl).of_ok hr
  exact ⟨pt, p, f, _, p', hnew, hatt, hr⟩

/-- A file of one page, on a volume with clusters of that size. -/
theorem pageOutInverts_full_page : ∃ pt p f w p', newUser .bare = .ok (pt, p) ∧
    (smallFile (List.replicate 4096 7) pt).doAllocOnePage 0x1000 p = .ok ((.ok f, w), p') ∧
    PageOutInverts 4096 (smallFile (List.replicate 4096 7) pt) w 0x1000 f p' := by
  have hpage : ((newUser >>= fun pt =>
      (smallFile (List.replicate 4096 7) pt).doAllocOnePage 0x1000) .bare).isOk := by
    decide +kernel
  have hlen : (List.replicate 4096 (7 : Byte)).length = 4096 := List.length_replicate
  obtain ⟨pt, p, f, w, p', hnew, hatt, hrun⟩ := smallFile_pagedIn hpage
  have hfile : (smallFile (List.replicate 4096 7) pt).file = some ⟨0, List.replicate 4096 7⟩ := rfl
  have hend : (smallFile (List.replicate 4096 7) pt).mapEnd = 0x2000 := by
    show 0x1000 + 0 + (List.replicate 4096 (7 : Byte)).length = 0x2000
    rw [hlen]
  refine ⟨pt, p, f, w, p', hnew, hrun,
    (pageOutInverts_iff_inPlace hatt (smallFile_isAnon _ _) hfile ?_ ?_ hrun).mpr ?_⟩
  · show (List.replicate 4096 (7 : Byte)).length ≤ MAX_FILE_SIZE
    rw [hlen]
    decide
  · show 0 + (List.replicate 4096 (7 : Byte)).length ≤ (List.replicate 4096 (7 : Byte)).length
    rw [Nat.zero_add]
  · refine ⟨?_, ?_, fun _ _ _ => rfl, ?_⟩
    · show (0 + (0x1000 - 0x1000)) % 4096 + pageSize ≤ 4096
      decide
    · show 0 + (0x1000 - 0x1000) + pageSize ≤ (List.replicate 4096 (7 : Byte)).length
      rw [hlen]
      decide
    · intro i hi hout
      refine absurd ⟨?_, ?_⟩ hout
      · show 0x1000 + 0 ≤ 0x1000 + i
        omega
      · rw [hend]
        rw [pageSize] at hi
        omega

/-- A shorter file is filled up with zeros to the size of a page. -/
theorem short_file_grows : ∃ pt p f w p', newUser .bare = .ok (pt, p) ∧
    (smallFile [7, 8, 9] pt).doAllocOnePage 0x1000 p = .ok ((.ok f, w), p') ∧
    ∃ w' q file, w.releaseOnePage 4096 0x1000 p' = .ok (w', q) ∧ w'.file = some file ∧
      file.bytes.length = 4096 := by
  have hpage : ((newUser >>= fun pt =>
      (smallFile [7, 8, 9] pt).doAllocOnePage 0x1000) .bare).isOk := by
    decide +kernel
  obtain ⟨pt, p, f, w, p', hnew, hatt, hrun⟩ := smallFile_pagedIn hpage
  have hfile : (smallFile [7, 8, 9] pt).file = some ⟨0, [7, 8, 9]⟩ := rfl
  have hbacked : (smallFile [7, 8, 9] pt).Backed :=
    fun _ => ⟨_, hfile, by decide, show 0 + 3 ≤ 3 by decide⟩
  have hpaged := doAllocOnePage_pagedIn hatt hbacked (smallFile_isAnon _ _) hrun
  have hlen : (p'.mem f).bytes.length = 4096 := PageData.length_bytes _
  have hwrite : MappedFile.writeOff 4096 ⟨0, [7, 8, 9]⟩ (p'.mem f).bytes 0 =
      some ((p'.mem f).bytes.length, ⟨0, putAt [7, 8, 9] 0 (p'.mem f).bytes⟩) := by
    rw [MappedFile.writeOff_eq_some, hlen]
    exact ⟨by decide, by decide, by decide, rfl⟩
  obtain ⟨w', q, hrel, hw'⟩ :=
    (hpaged.released_clean_iff (smallFile_isAnon _ _) hfile le_rfl).mpr hwrite
  refine ⟨pt, p, f, w, p', hnew, hrun, w', q, _, hrel, hw', ?_⟩
  have hgrown := @length_putAt _ [7, 8, 9] (p'.mem f).bytes 0 (Nat.zero_le _)
  rw [hlen] at hgrown
  exact hgrown

end Vma

end Zinix
