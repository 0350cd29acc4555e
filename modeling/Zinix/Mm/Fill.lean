import Zinix.Mm.VmaSpec

/-!
# What a new page holds

`alloc_pages` clears the frame that it hands out, word by word, and the bytes of a mapped
file come from `read_off_exact`.
-/

namespace Zinix

open Program

namespace Phys

/-- `clear_one_page`. The direct map keeps the alignment of the page. -/
def clearOnePage (f : Frame) : Program Phys Unit :=
  ((List.range' f.paddr pageSize).filter fun addr => addr % 8 = 0).foldlM
    (fun _ addr => setUsizeByAddr (f, Fin.ofNat 512 ((addr - f.paddr) / 8)) 0) ()

/-- `alloc_pages(0)` with the loop that clears the page. -/
def allocAndClear : Program Phys (Option Frame) := do
  let p ← get
  match p.allocator.pick p.live with
  | none => return none
  | some f =>
    set { p with live := insert f p.live }
    clearOnePage f
    return some f

theorem foldlM_clear (f : Frame) (addrs : List ℕ) (p : Phys) :
    addrs.foldlM (fun _ addr => setUsizeByAddr (f, Fin.ofNat 512 ((addr - f.paddr) / 8)) 0) () p =
      .ok ((), p.setPage f fun i =>
        if ∃ addr ∈ addrs, Fin.ofNat 512 ((addr - f.paddr) / 8) = i then 0 else p.mem f i) := by
  induction addrs generalizing p with
  | nil =>
    have hsame : p.setPage f (p.mem f) = p := by
      rw [setPage, replaceAt_eq_self rfl]
    simp only [List.not_mem_nil, false_and, exists_false, if_false]
    rw [hsame]
    rfl
  | cons addr addrs ih =>
    have hset : setUsizeByAddr (f, Fin.ofNat 512 ((addr - f.paddr) / 8)) 0 p = .ok ((),
        p.setPage f (replaceAt (p.mem f) (Fin.ofNat 512 ((addr - f.paddr) / 8)) 0)) := rfl
    rw [List.foldlM_cons, bind_apply, hset, Checked.ok_bind, ih]
    have hmem : ∀ pg pg' : PageData, (p.setPage f pg).setPage f pg' = p.setPage f pg' := by
      intro pg pg'
      rw [setPage, setPage, setPage, replaceAt_replaceAt]
    rw [hmem]
    congr 3
    funext i
    have hself : (p.setPage f (replaceAt (p.mem f) (Fin.ofNat 512 ((addr - f.paddr) / 8)) 0)).mem f =
        replaceAt (p.mem f) (Fin.ofNat 512 ((addr - f.paddr) / 8)) 0 := replaceAt_self
    rw [hself]
    by_cases hrest : ∃ a ∈ addrs, Fin.ofNat 512 ((a - f.paddr) / 8) = i
    · rw [if_pos hrest, if_pos (by obtain ⟨a, ha, hi⟩ := hrest; exact ⟨a, .tail _ ha, hi⟩)]
    · by_cases hi : Fin.ofNat 512 ((addr - f.paddr) / 8) = i
      · rw [if_neg hrest, if_pos ⟨addr, .head _, hi⟩, hi, replaceAt_self]
      · rw [if_neg hrest, replaceAt_of_ne (Ne.symm hi), if_neg]
        rintro ⟨a, ha, heq⟩
        rcases List.mem_cons.mp ha with rfl | ha
        · exact hi heq
        · exact hrest ⟨a, ha, heq⟩

theorem clearOnePage_eq (f : Frame) (p : Phys) :
    clearOnePage f p = .ok ((), p.setPage f fun _ => 0) := by
  rw [clearOnePage, foldlM_clear]
  congr 3
  funext i
  refine if_pos ⟨f.paddr + 8 * i.val, ?_, ?_⟩
  · have hi := i.isLt
    rw [List.mem_filter, List.mem_range'_1, decide_eq_true_eq]
    simp only [Frame.paddr, pageSize]
    omega
  · apply Fin.ext
    simp only [Fin.val_ofNat]
    omega

theorem allocOnePage_eq : allocOnePage = allocAndClear := by
  funext p
  unfold allocOnePage allocAndClear
  rw [bind_apply, bind_apply]
  show (match p.allocator.pick p.live with | none => _ | some f => _ : Program Phys (Option Frame)) p =
    (match p.allocator.pick p.live with | none => _ | some f => _ : Program Phys (Option Frame)) p
  cases p.allocator.pick p.live with
  | none => rfl
  | some f =>
    show _ = (clearOnePage f >>= fun _ => pure (some f)) { p with live := insert f p.live }
    rw [bind_apply, clearOnePage_eq]
    rfl

end Phys

namespace MappedFile

/-- `read_off`, when the file gives at most `limit + 1` bytes at a time. -/
def readOff (file : MappedFile) (limit len off : ℕ) : Option (List (BitVec 8)) :=
  if 2 ^ 32 ≤ off then none else some ((file.bytes.drop off).take (min len (limit + 1)))

/-- The loop of `read_off_exact`, in which each read has its own limit. -/
def readLoop (file : MappedFile) (limits : ℕ → ℕ) (needLen off : ℕ) :
    ℕ → List (BitVec 8) → Option (List (BitVec 8))
  | 0, buf => some buf
  | n + 1, buf =>
    if buf.length < needLen then
      match file.readOff (limits n) (needLen - buf.length) (off + buf.length) with
      | none => none
      | some new =>
        if new.length = 0 then some buf else file.readLoop limits needLen off n (buf ++ new)
    else
      some buf

variable {file : MappedFile} {limits : ℕ → ℕ} {needLen off : ℕ}

/-- What has been read is a part of the file, and the loop goes on to its end. -/
theorem readLoop_eq (hfat : file.bytes.length < 2 ^ 32) (hoff : off < 2 ^ 32) (n : ℕ)
    {buf : List (BitVec 8)} (hbuf : buf = (file.bytes.drop off).take buf.length)
    (hlen : buf.length ≤ needLen) (hn : needLen ≤ buf.length + n) :
    file.readLoop limits needLen off n buf = some ((file.bytes.drop off).take needLen) := by
  induction n generalizing buf with
  | zero =>
    have heq : buf.length = needLen := by omega
    rw [readLoop, ← heq, ← hbuf]
  | succ n ih =>
    rw [readLoop]
    by_cases hmore : buf.length < needLen
    · have hshort : ¬2 ^ 32 ≤ off + buf.length := by
        have hle : buf.length ≤ file.bytes.length - off := by
          rw [hbuf, List.length_take, List.length_drop]
          omega
        omega
      have hm : 0 < min (needLen - buf.length) (limits n + 1) := by omega
      have hle : min (needLen - buf.length) (limits n + 1) ≤ needLen - buf.length := min_le_left _ _
      rw [if_pos hmore, readOff, if_neg hshort, ← List.drop_drop]
      generalize min (needLen - buf.length) (limits n + 1) = m at hm hle
      generalize file.bytes.drop off = rest at hbuf ih ⊢
      have hnew : ((rest.drop buf.length).take m).length = min m (rest.length - buf.length) := by
        rw [List.length_take, List.length_drop]
      simp only
      split_ifs with hempty
      · -- the end of the file
        have hend : rest.length ≤ buf.length := by omega
        rw [List.take_of_length_le (hend.trans hlen), ← List.take_of_length_le hend, ← hbuf]
      · refine ih ?_ ?_ ?_
        · rw [List.length_append, List.take_add, ← hbuf, List.length_take, ← List.take_eq_take_min]
        · rw [List.length_append, hnew]
          omega
        · rw [List.length_append, hnew]
          omega
    · have heq : buf.length = needLen := by omega
      rw [if_neg hmore, ← heq, ← hbuf]

theorem readLoop_eq_readOffExact (hfat : file.bytes.length < 2 ^ 32) (limits : ℕ → ℕ)
    (needLen off : ℕ) :
    file.readLoop limits needLen off needLen [] = file.readOffExact needLen off := by
  rw [readOffExact]
  by_cases hbeyond : 0 < needLen ∧ 2 ^ 32 ≤ off
  · obtain ⟨n, rfl⟩ := Nat.exists_eq_succ_of_ne_zero hbeyond.1.ne'
    rw [if_pos hbeyond, readLoop, if_pos (by simp), readOff,
      if_pos (hbeyond.2.trans (Nat.le_add_right _ _))]
  · rw [if_neg hbeyond]
    by_cases hzero : needLen = 0
    · rw [hzero, readLoop, List.take_zero]
    · exact readLoop_eq hfat (by omega) needLen (by simp) (Nat.zero_le _) (by simp)

end MappedFile

theorem PageData.byte_zero (off : ℕ) : PageData.byte (fun _ => 0) off = 0 := by
  simp [PageData.byte]

namespace Vma

variable {vma : Vma} {v : ℕ} {file : MappedFile}

def mapStart (vma : Vma) : ℕ := vma.startVaddr + vma.fileInVmaOff

def mapEnd (vma : Vma) : ℕ := vma.mapStart + vma.fileLen

def byteAt (vma : Vma) (a : ℕ) : BitVec 8 :=
  match vma.file with
  | none => 0
  | some file =>
    if vma.isAnon = false ∧ vma.mapStart ≤ a ∧ a < vma.mapEnd then
      file.bytes.getD (vma.fileOff + (a - vma.mapStart)) 0
    else
      0

/-- The part of a page that lies in the mapped part of the file. -/
def piece (vma : Vma) (v : ℕ) : FilePiece where
  pageOff := vma.mapStart - v
  len := min pageSize (vma.mapEnd - v) - (vma.mapStart - v)
  fileOff := vma.fileOff + (v - vma.mapStart)

/-- The sums of `_do_alloc_one_page` do not fit into a word. -/
def Overflows (vma : Vma) (v : ℕ) : Prop := wordSize ≤ vma.mapEnd ∨ wordSize ≤ v + pageSize

theorem filePiece_cases (vma : Vma) (v : ℕ) :
    vma.filePiece v = .error .overflow ∧
        (vma.Overflows v ∨ v < vma.mapEnd ∧ wordSize ≤ vma.fileOff + (v - vma.mapStart)) ∨
      vma.filePiece v = .ok (if v + pageSize ≤ vma.mapStart ∨ vma.mapEnd ≤ v then none
        else some (vma.piece v)) := by
  have hend : vma.mapEnd = vma.mapStart + vma.fileLen := rfl
  have hpage : 0 < pageSize := by decide
  by_cases hfits : wordSize ≤ vma.mapEnd
  · refine .inl ⟨?_, .inl (.inl hfits)⟩
    unfold filePiece
    by_cases hfirst : vma.mapStart < wordSize
    · have hsum : wordSize ≤ vma.startVaddr + vma.fileInVmaOff + vma.fileLen := hfits
      rw [addUsize_ok hfirst, Checked.ok_bind, addUsize_overflow hsum]
      rfl
    · rw [addUsize_overflow (Nat.not_lt.mp hfirst)]
      rfl
  have hstart : addUsize vma.startVaddr vma.fileInVmaOff = .ok vma.mapStart :=
    addUsize_ok (show vma.mapStart < wordSize by omega)
  have hstop : addUsize vma.mapStart vma.fileLen = .ok vma.mapEnd :=
    addUsize_ok (Nat.not_le.mp hfits)
  unfold filePiece
  rw [hstart, Checked.ok_bind, hstop, Checked.ok_bind]
  by_cases hafter : vma.mapEnd ≤ v
  · rw [if_neg (by omega), if_pos hafter, if_pos (.inr hafter)]
    exact .inr rfl
  rw [if_neg hafter]
  by_cases hnext : wordSize ≤ v + pageSize
  · refine .inl ⟨?_, .inl (.inr hnext)⟩
    rw [addUsize_overflow hnext]
    split_ifs
    · rfl
    · rfl
  rw [addUsize_ok (Nat.not_le.mp hnext), Checked.ok_bind, Checked.ok_bind]
  by_cases hfar : v + pageSize ≤ vma.mapStart
  · refine .inr ?_
    rw [if_pos (by omega), if_neg (by omega), if_pos (.inl hfar)]
    rfl
  rw [if_neg (show ¬(v + pageSize ≤ vma.mapStart ∨ vma.mapEnd ≤ v) by omega), piece]
  have hright : ∀ next : ℕ → Checked (Option FilePiece),
      (if v + pageSize ≤ vma.mapEnd then pure pageSize >>= next
        else subUsize vma.mapEnd v >>= next) = next (min pageSize (vma.mapEnd - v)) := by
    intro next
    split_ifs with hcut
    · rw [min_eq_left (by omega)]
      rfl
    · rw [min_eq_right (by omega), subUsize_ok (by omega)]
      rfl
  simp only [hright]
  by_cases hbefore : v < vma.mapStart
  · -- the file starts within the page
    refine .inr ?_
    rw [if_pos hbefore, if_pos (by omega), subUsize_ok hbefore.le, Checked.ok_bind,
      subUsize_ok (by omega), Nat.sub_eq_zero_of_le hbefore.le, Nat.add_zero]
    rfl
  · rw [if_neg hbefore, subUsize_ok (by omega), Checked.ok_bind]
    by_cases hoff : wordSize ≤ vma.fileOff + (v - vma.mapStart)
    · refine .inl ⟨?_, .inr ⟨Nat.not_le.mp hafter, hoff⟩⟩
      rw [addUsize_overflow (by omega)]
      rfl
    · refine .inr ?_
      rw [addUsize_ok (by omega), Nat.sub_eq_zero_of_le (Nat.not_lt.mp hbefore), Nat.sub_zero,
        Nat.add_comm (v - _)]
      rfl

theorem readPiece_eq (hfile : vma.file = some file) (hfat : file.bytes.length < 2 ^ 32)
    {piece : FilePiece} (hin : piece.fileOff + piece.len ≤ file.bytes.length) :
    vma.readPiece piece = .ok ((file.bytes.drop piece.fileOff).take piece.len) := by
  have hoff : ¬(0 < piece.len ∧ 2 ^ 32 ≤ piece.fileOff) := by omega
  have hlen : ((file.bytes.drop piece.fileOff).take piece.len).length = piece.len := by
    rw [List.length_take, List.length_drop]
    omega
  rw [Vma.readPiece, hfile, Checked.unwrap_some, Checked.ok_bind, MappedFile.readOffExact,
    if_neg hoff, Checked.unwrap_some, Checked.ok_bind, Checked.ensure_pos hlen]
  rfl

theorem byte_piece (pg : PageData) {piece : FilePiece} {off : ℕ}
    (hin : piece.fileOff + piece.len ≤ file.bytes.length)
    (hpage : piece.pageOff + piece.len ≤ pageSize) (hoff : off < pageSize) :
    (pg.setBytes piece.pageOff ((file.bytes.drop piece.fileOff).take piece.len)).byte off =
      if piece.pageOff ≤ off ∧ off < piece.pageOff + piece.len then
        file.bytes.getD (piece.fileOff + (off - piece.pageOff)) 0
      else pg.byte off := by
  have hlen : ((file.bytes.drop piece.fileOff).take piece.len).length = piece.len := by
    rw [List.length_take, List.length_drop]
    omega
  rw [PageData.byte_setBytes _ (by rw [hlen]; exact hpage) hoff, hlen]
  by_cases hmid : piece.pageOff ≤ off ∧ off < piece.pageOff + piece.len
  · rw [if_pos hmid, if_pos hmid, List.getD_eq_getElem?_getD, List.getElem?_take,
      if_pos (by omega), List.getElem?_drop, List.getD_eq_getElem?_getD]
  · rw [if_neg hmid, if_neg hmid]

/-- The file of a mapping has the bytes that are mapped. -/
def Backed (vma : Vma) : Prop :=
  vma.isAnon = false → ∃ file, vma.file = some file ∧ file.bytes.length < 2 ^ 32 ∧
    vma.fileOff + vma.fileLen ≤ file.bytes.length

theorem byteAt_anon (hanon : vma.isAnon = true) (a : ℕ) : vma.byteAt a = 0 := by
  unfold byteAt
  cases vma.file with
  | none => rfl
  | some file => exact if_neg fun h => absurd hanon (by simp [h.1])

theorem byteAt_mapped (hfile : vma.file = some file) (hanon : vma.isAnon = false) {a : ℕ}
    (hin : vma.mapStart ≤ a ∧ a < vma.mapEnd) :
    vma.byteAt a = file.bytes.getD (vma.fileOff + (a - vma.mapStart)) 0 := by
  rw [byteAt, hfile]
  exact if_pos ⟨hanon, hin⟩

theorem byteAt_outside {a : ℕ} (hout : ¬(vma.mapStart ≤ a ∧ a < vma.mapEnd)) :
    vma.byteAt a = 0 := by
  unfold byteAt
  cases vma.file with
  | none => rfl
  | some file => exact if_neg fun h => hout h.2

theorem piece_inFile (hin : vma.fileOff + vma.fileLen ≤ file.bytes.length)
    (hmid : ¬(v + pageSize ≤ vma.mapStart ∨ vma.mapEnd ≤ v)) :
    (vma.piece v).fileOff + (vma.piece v).len ≤ file.bytes.length ∧
      (vma.piece v).pageOff + (vma.piece v).len ≤ pageSize := by
  have hend : vma.mapEnd = vma.mapStart + vma.fileLen := rfl
  simp only [piece]
  omega

theorem piece_covers {i : ℕ} (hi : i < pageSize) :
    ((vma.piece v).pageOff ≤ i ∧ i < (vma.piece v).pageOff + (vma.piece v).len) ↔
      vma.mapStart ≤ v + i ∧ v + i < vma.mapEnd := by
  simp only [piece]
  omega

/-- What `_do_alloc_one_page` makes of a page that it reads a file into. -/
def filled (vma : Vma) (v : ℕ) (pg : PageData) : Checked PageData := do
  match ← vma.filePiece v with
  | none => return pg
  | some piece =>
    let buf ← vma.readPiece piece
    return pg.setBytes piece.pageOff buf

/-- A page gets the bytes of the file that belong there, and keeps the others. -/
theorem Backed.filled (h : vma.Backed) (hanon : vma.isAnon = false) (v : ℕ) (pg : PageData) :
    vma.filled v pg = .error .overflow ∧ vma.Overflows v ∨
      ∃ pg', vma.filled v pg = .ok pg' ∧ ∀ i < pageSize, pg'.byte i =
        if vma.mapStart ≤ v + i ∧ v + i < vma.mapEnd then vma.byteAt (v + i) else pg.byte i := by
  obtain ⟨file, hfile, hfat, hin⟩ := h hanon
  have hword : 2 ^ 32 < wordSize := by decide
  have hend : vma.mapEnd = vma.mapStart + vma.fileLen := rfl
  unfold Vma.filled
  rcases filePiece_cases vma v with ⟨hpiece, hover⟩ | hpiece
  · refine .inl ⟨?_, hover.resolve_right (by omega)⟩
    rw [hpiece]
    rfl
  · refine .inr ?_
    rw [hpiece, Checked.ok_bind]
    by_cases hout : v + pageSize ≤ vma.mapStart ∨ vma.mapEnd ≤ v
    · rw [if_pos hout]
      refine ⟨pg, rfl, fun i hi => ?_⟩
      rw [if_neg (by omega)]
    · rw [if_neg hout]
      obtain ⟨hread, hpage⟩ := piece_inFile hin hout
      simp only [readPiece_eq hfile hfat hread, Checked.ok_bind]
      refine ⟨_, rfl, fun i hi => ?_⟩
      rw [byte_piece pg hread hpage hi]
      by_cases hmid : vma.mapStart ≤ v + i ∧ v + i < vma.mapEnd
      · have hoff : (vma.piece v).fileOff + (i - (vma.piece v).pageOff) =
            vma.fileOff + (v + i - vma.mapStart) := by
          simp only [piece]
          omega
        rw [if_pos ((piece_covers hi).mpr hmid), if_pos hmid, byteAt_mapped hfile hanon hmid, hoff]
      · rw [if_neg fun hc => hmid ((piece_covers hi).mp hc), if_neg hmid]

theorem backing_eq_filled (hanon : vma.isAnon = false) :
    vma.backing v = vma.filled v fun _ => 0 := by
  rw [backing, if_neg (by simp [hanon])]
  rfl

theorem Backed.backing (h : vma.Backed) (v : ℕ) :
    vma.backing v = .error .overflow ∧ vma.isAnon = false ∧ vma.Overflows v ∨
      ∃ pg, vma.backing v = .ok pg ∧ ∀ i < pageSize, pg.byte i = vma.byteAt (v + i) := by
  cases hanon : vma.isAnon with
  | true =>
    refine .inr ⟨fun _ => 0, ?_, fun i _ => ?_⟩
    · rw [Vma.backing, if_pos hanon]
      rfl
    · rw [PageData.byte_zero, byteAt_anon hanon]
  | false =>
    rw [backing_eq_filled hanon]
    rcases h.filled hanon v fun _ => 0 with ⟨herror, hover⟩ | ⟨pg, hpg, hbytes⟩
    · exact .inl ⟨herror, rfl, hover⟩
    · refine .inr ⟨pg, hpg, fun i hi => ?_⟩
      rw [hbytes i hi, PageData.byte_zero]
      split_ifs with hmid
      · rfl
      · exact (byteAt_outside hmid).symm

section Reads

variable (limits : ℕ → ℕ)

/-- The slice of the page and the loop that reads into it. -/
def readPieceBy (self : Vma) (piece : FilePiece) : Checked (List (BitVec 8)) := do
  let file ← Checked.unwrap self.file
  Checked.ensure (piece.pageOff + piece.len ≤ pageSize) .outOfBounds
  let buf ← Checked.unwrap (file.readLoop limits piece.len piece.fileOff piece.len [])
  Checked.ensure (buf.length = piece.len) .assertion
  return buf

def allocAndFillBy (self : Vma) (vaddr : ℕ) : Program Phys (Frame × Vma) := do
  if self.isAnon then
    self.fastAllocOnePageAndGet vaddr
  else
    let piece ← self.filePiece vaddr
    let (pg, self) ← self.fastAllocOnePageAndGet vaddr
    match piece with
    | none => return (pg, self)
    | some piece =>
      let buf ← self.readPieceBy limits piece
      modify fun p => p.setPage pg ((p.mem pg).setBytes piece.pageOff buf)
      return (pg, self)

/-- `_do_alloc_one_page` with the loop of its read. -/
def doAllocOnePageBy (self : Vma) (vaddr : ℕ) : Program Phys (Except Unit Frame × Vma) := do
  if !Vaddr.isAlign vaddr || !self.inVma vaddr then
    return (.error (), self)
  else
    let (pg, self) ← self.allocAndFillBy limits vaddr
    return (.ok pg, if self.writeable then self.setDirty else self)

/-- The slice lies in the page, and the loop reads what `readOffExact` does. -/
theorem readPieceBy_eq (hfat : ∀ file, vma.file = some file → file.bytes.length < 2 ^ 32)
    {piece : FilePiece} (hpage : piece.pageOff + piece.len ≤ pageSize) :
    vma.readPieceBy limits piece = vma.readPiece piece := by
  unfold readPieceBy readPiece
  cases hfile : vma.file with
  | none => rfl
  | some file =>
    rw [Checked.unwrap_some, Checked.ok_bind, Checked.ok_bind, Checked.ensure_pos hpage,
      Checked.ok_bind, MappedFile.readLoop_eq_readOffExact (hfat file hfile)]

theorem allocAndFillBy_eq (h : vma.Backed) (p : Phys) :
    vma.allocAndFillBy limits v p = vma.allocAndFill v p := by
  unfold allocAndFillBy allocAndFill
  cases hanon : vma.isAnon with
  | true => rfl
  | false =>
    obtain ⟨file, hfile, hfat, hin⟩ := h hanon
    simp only [Bool.false_eq_true, if_false]
    rw [lift_bind_apply, lift_bind_apply]
    rcases filePiece_cases vma v with ⟨hpiece, -⟩ | hpiece
    · rw [hpiece]
      rfl
    · rw [hpiece, Checked.ok_bind, Checked.ok_bind]
      by_cases hout : v + pageSize ≤ vma.mapStart ∨ vma.mapEnd ≤ v
      · rw [if_pos hout]
      · rw [if_neg hout, bind_apply, bind_apply]
        cases hrun : vma.fastAllocOnePageAndGet v p with
        | error e => rfl
        | ok r =>
          have hsame : r.1.2.file = vma.file := by
            rcases (vma.fastAllocOnePageAndGet_area v p).of_ok hrun with heq | heq
            · rw [heq]
            · rw [heq]
              rfl
          have hfat' : ∀ file, r.1.2.file = some file → file.bytes.length < 2 ^ 32 := by
            intro file' hfile'
            rw [hsame, hfile] at hfile'
            cases hfile'
            exact hfat
          simp only [Checked.ok_bind, readPieceBy_eq limits hfat' (piece_inFile hin hout).2]

theorem doAllocOnePageBy_eq (h : vma.Backed) (p : Phys) :
    vma.doAllocOnePageBy limits v p = vma.doAllocOnePage v p := by
  unfold doAllocOnePageBy doAllocOnePage
  split_ifs
  · rfl
  · rw [bind_apply, bind_apply, allocAndFillBy_eq limits h]

/-- A page that is brought in has the bytes that belong there, whatever its frame held and
however the file is read. It fails only when the allocator has no frame for the page or for
a table above it, when the entry of the page is in use, and when the addresses do not fit
into a word. -/
theorem doAllocOnePageBy_fills {own : Fin 512 → Prop} {p : Phys} {pt : ℕ} (h : vma.Backed)
    (hpt : PtOk own p pt) (hown : own (addrGetPpn2 v)) (htable : vma.pagetable = some pt)
    (hnone : vma.pagesTree.get? v = none) (hin : vma.inVma v) (halign : Vaddr.isAlign v) :
    Sat (vma.doAllocOnePageBy limits v) p
      (fun r p' => ∃ f, r = (.ok f, (vma.withPage v f).touched) ∧ f ∉ p.live ∧
        p'.pte pt v = PTE.leaf f (vmaFlags2PteFlags vma.vmFlags) ∧
        ∀ i < pageSize, (p'.mem f).byte i = vma.byteAt (v + i))
      (fun e => e = .outOfMemory ∧ ¬p.Supplies (1 + (p.missing pt v).card) ∨
        e = .todo ∧ (p.pte pt v).valid ∨
        e = .overflow ∧ vma.isAnon = false ∧ vma.Overflows v) ∧
    (p.Supplies (1 + (p.missing pt v).card) → (p.pte pt v).valid = false →
      (vma.isAnon = false → ¬vma.Overflows v) →
      ∃ r p', vma.doAllocOnePageBy limits v p = .ok (r, p')) := by
  have hplaced := Vma.doAllocOnePage_placed hpt hown htable hnone hin halign
  rw [Sat, ← doAllocOnePageBy_eq limits h, ← Sat] at hplaced
  have hfills := hplaced.mono (R := fun r p' => ∃ f, r = (.ok f, (vma.withPage v f).touched) ∧
      f ∉ p.live ∧ p'.pte pt v = PTE.leaf f (vmaFlags2PteFlags vma.vmFlags) ∧
      ∀ i < pageSize, (p'.mem f).byte i = vma.byteAt (v + i))
    (F := fun e => e = .outOfMemory ∧ ¬p.Supplies (1 + (p.missing pt v).card) ∨
      e = .todo ∧ (p.pte pt v).valid ∨ e = .overflow ∧ vma.isAnon = false ∧ vma.Overflows v)
    ?_ ?_
  · refine ⟨hfills, fun hmemory hfree hfits => ?_⟩
    cases hrun : vma.doAllocOnePageBy limits v p with
    | ok r => exact ⟨r.1, r.2, rfl⟩
    | error e =>
      rcases hfills.of_error hrun with ⟨-, hshort⟩ | ⟨-, hvalid⟩ | ⟨-, hanon, hover⟩
      · exact absurd hmemory hshort
      · rw [hfree] at hvalid
        cases hvalid
      · exact absurd hover (hfits hanon)
  · rintro _ p' ⟨f, pg, rfl, hpg, hf⟩
    refine ⟨f, rfl, hf.fresh, hf.pte hpt hown, ?_⟩
    rcases h.backing v with ⟨herror, -⟩ | ⟨pg', hpg', hbytes⟩
    · cases herror.symm.trans hpg
    · cases hpg'.symm.trans hpg
      rw [hf.mem]
      exact hbytes
  · rintro e (he | he | he)
    · exact .inl he
    · exact .inr (.inl he)
    · rcases h.backing v with ⟨herror, hover⟩ | ⟨pg', hpg', -⟩
      · cases herror.symm.trans he
        exact .inr (.inr ⟨rfl, hover⟩)
      · cases hpg'.symm.trans he

end Reads

/-- A file of three bytes, of which the first two lie at the end of the first page. -/
def acrossPages (pt : ℕ) : Vma :=
  { Vma.empty 0x1000 0x3000 with
    vmFlags := .VM_READ ||| .VM_USER
    pagetable := some pt
    file := some ⟨0, [7, 8, 9]⟩
    fileInVmaOff := 0xffe
    fileLen := 3 }

/-- The second page, read byte by byte: it begins with the last byte of the file. -/
theorem doAllocOnePageBy_fills_acrossPages : ∃ p p' f w,
    PageTable.newUser .bare = .ok (1, p) ∧
    (acrossPages 1).doAllocOnePageBy (fun _ => 0) 0x2000 p = .ok ((.ok f, w), p') ∧
    p'.pte 1 0x2000 = PTE.leaf f (vmaFlags2PteFlags (acrossPages 1).vmFlags) ∧
    (p'.mem f).byte 0 = 9 ∧ ∀ i < pageSize, 0 < i → (p'.mem f).byte i = 0 := by
  have hrun : (PageTable.newUser .bare).map (fun r => (r.1,
      decide (r.2.Supplies (1 + (r.2.missing 1 0x2000).card)), (r.2.pte 1 0x2000).valid)) =
        .ok (1, true, false) := by
    decide +kernel
  obtain ⟨⟨pt, p⟩, hnew, hfacts⟩ := Checked.map_eq_ok.mp hrun
  simp only [Prod.mk.injEq, decide_eq_true_eq] at hfacts
  obtain ⟨rfl, hmemory, hfree⟩ := hfacts
  obtain ⟨hfills, hreturns⟩ := doAllocOnePageBy_fills (fun _ => 0)
    (show (acrossPages 1).Backed from
      fun _ => ⟨⟨0, [7, 8, 9]⟩, rfl, by decide, show 0 + 3 ≤ 3 by decide⟩)
    (PageTable.ptOk_newUser_bare hnew) (v := 0x2000)
    (show (addrGetPpn2 0x2000).val < 2 by decide) rfl rfl rfl rfl
  obtain ⟨r, p', hok⟩ := hreturns hmemory hfree fun _ => by
    rintro (hover | hover)
    · exact absurd hover (by decide)
    · exact absurd hover (by decide)
  obtain ⟨f, rfl, -, hpte, hbytes⟩ := hfills.of_ok hok
  refine ⟨p, p', f, _, hnew, hok, hpte, (hbytes 0 (by decide)).trans (by decide), ?_⟩
  intro i hi hpos
  rw [hbytes i hi, byteAt_outside]
  simp only [mapEnd, mapStart, acrossPages, Vma.empty]
  omega

end Vma

end Zinix
