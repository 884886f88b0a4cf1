import Picorv32Soc.Makehex
import Picorv32Soc.RamService
import Picorv32Soc.Top

/-!
# The firmware in the memories

`tb_chip.v` fills the block RAMs of the two memories from the files of `makehex.py`, one `$readmemh` for
each. The layout of a byte address is written down three times: in the loop of the script, in the 32
calls and in the address decoder of `RAM_64KB`. `firmware_read` says that the three agree.
-/

namespace Picorv32Soc
open Bits HexText Makehex

inductive Memory
  /-- `_text_RAM` -/
  | text
  /-- `_heap_RAM` -/
  | heap
deriving DecidableEq

/-- `$readmemh("firmware/hex/firmwareram<number>.hex", uut._top.<memory>._ram_4k_32_<bank>._bram<lane>.mem)`. -/
structure Readmemh where
  number : List Char
  memory : Memory
  bank : BitVec 2
  lane : BitVec 2
deriving DecidableEq

def Readmemh.path (c : Readmemh) : List Char := "firmware/hex/firmwareram".toList ++ c.number ++ ".hex".toList

/-- The calls of `tb_chip.v`. -/
def readmemhs : List Readmemh := [
  ⟨"00".toList, .text, 0, 0⟩, ⟨"01".toList, .text, 0, 1⟩, ⟨"02".toList, .text, 0, 2⟩, ⟨"03".toList, .text, 0, 3⟩,
  ⟨"04".toList, .text, 1, 0⟩, ⟨"05".toList, .text, 1, 1⟩, ⟨"06".toList, .text, 1, 2⟩, ⟨"07".toList, .text, 1, 3⟩,
  ⟨"08".toList, .text, 2, 0⟩, ⟨"09".toList, .text, 2, 1⟩, ⟨"10".toList, .text, 2, 2⟩, ⟨"11".toList, .text, 2, 3⟩,
  ⟨"12".toList, .text, 3, 0⟩, ⟨"13".toList, .text, 3, 1⟩, ⟨"14".toList, .text, 3, 2⟩, ⟨"15".toList, .text, 3, 3⟩,
  ⟨"16".toList, .heap, 0, 0⟩, ⟨"17".toList, .heap, 0, 1⟩, ⟨"18".toList, .heap, 0, 2⟩, ⟨"19".toList, .heap, 0, 3⟩,
  ⟨"20".toList, .heap, 1, 0⟩, ⟨"21".toList, .heap, 1, 1⟩, ⟨"22".toList, .heap, 1, 2⟩, ⟨"23".toList, .heap, 1, 3⟩,
  ⟨"24".toList, .heap, 2, 0⟩, ⟨"25".toList, .heap, 2, 1⟩, ⟨"26".toList, .heap, 2, 2⟩, ⟨"27".toList, .heap, 2, 3⟩,
  ⟨"28".toList, .heap, 3, 0⟩, ⟨"29".toList, .heap, 3, 1⟩, ⟨"30".toList, .heap, 3, 2⟩, ⟨"31".toList, .heap, 3, 3⟩]

/-- `$readmemh` into a byte-wide array: the numbers of the file go to the addresses from 0 up, and the
rest of the array keeps its values. -/
def readmemh (text : List Char) (mem : BitVec 12 → BitVec 8) : Option (BitVec 12 → BitVec 8) :=
  (numbers none text).map fun ns x => (ns[x.toNat]?.map (BitVec.ofNat 8)).getD (mem x)

def Ram64KB.setMem (r : Ram64KB) (bank lane : BitVec 2) (mem : BitVec 12 → BitVec 8) : Ram64KB :=
  { r with
    bank := Function.update r.bank bank
      ⟨Function.update (r.bank bank).bram lane { (r.bank bank).bram lane with mem := mem }⟩ }

namespace Top

def memory (s : Top) : Memory → Ram64KB
  | .text => s.textRam
  | .heap => s.sys.ram

/-- The array `mem` of a block RAM. -/
def bram (s : Top) (m : Memory) (bank lane : BitVec 2) : BitVec 12 → BitVec 8 :=
  (((s.memory m).bank bank).bram lane).mem

def setBram (s : Top) (m : Memory) (bank lane : BitVec 2) (mem : BitVec 12 → BitVec 8) : Top :=
  match m with
  | .text => { s with textRam := s.textRam.setMem bank lane mem }
  | .heap => { s with sys := { s.sys with ram := s.sys.ram.setMem bank lane mem } }

def load (files : Files) (s : Top) (c : Readmemh) : Option Top := do
  let mem ← readmemh (← files c.path) (s.bram c.memory c.bank c.lane)
  return s.setBram c.memory c.bank c.lane mem

/-- The loads of the `initial` block. -/
def loadAll (files : Files) (s : Top) : Option Top := readmemhs.foldlM (load files) s

/-! ### What is loaded -/

theorem bram_setBram_self (s : Top) (m : Memory) (b l : BitVec 2) (mem : BitVec 12 → BitVec 8) :
    (s.setBram m b l mem).bram m b l = mem := by
  cases m <;> simp [bram, setBram, memory, Ram64KB.setMem]

theorem bram_setBram_of_ne (s : Top) {m m' : Memory} {b b' l l' : BitVec 2} (mem : BitVec 12 → BitVec 8)
    (h : (m', b', l') ≠ (m, b, l)) : (s.setBram m b l mem).bram m' b' l' = s.bram m' b' l' := by
  by_cases hm : m' = m
  · subst hm
    by_cases hb : b' = b
    · subst hb
      have hl : l' ≠ l := fun hl => h (by rw [hl])
      cases m' <;> simp [bram, setBram, memory, Ram64KB.setMem, hl]
    · cases m' <;> simp [bram, setBram, memory, Ram64KB.setMem, hb]
  · cases m <;> cases m' <;> first | exact absurd rfl hm | rfl

theorem ramWstrb_setBram (s : Top) (m m' : Memory) (b l : BitVec 2) (mem : BitVec 12 → BitVec 8) :
    ((s.setBram m b l mem).memory m').ramWstrb = (s.memory m').ramWstrb := by
  cases m <;> cases m' <;> rfl

/-- Loads into different block RAMs, from files that fill them. -/
theorem foldlM_load {files : Files} (mem : Memory → BitVec 2 → BitVec 2 → BitVec 12 → BitVec 8) {cs : List Readmemh}
    (hnd : (cs.map fun c => (c.memory, c.bank, c.lane)).Nodup)
    (hfile : ∀ c ∈ cs, ∃ text, files c.path = some text ∧
      ∀ old, readmemh text old = some (mem c.memory c.bank c.lane)) (s : Top) :
    ∃ s', cs.foldlM (load files) s = some s' ∧
      (∀ c ∈ cs, s'.bram c.memory c.bank c.lane = mem c.memory c.bank c.lane) ∧
      (∀ m b l, (m, b, l) ∉ cs.map (fun c => (c.memory, c.bank, c.lane)) → s'.bram m b l = s.bram m b l) ∧
      ∀ m, (s'.memory m).ramWstrb = (s.memory m).ramWstrb := by
  induction cs generalizing s with
  | nil => exact ⟨s, rfl, fun _ hc => absurd hc List.not_mem_nil, fun _ _ _ _ => rfl, fun _ => rfl⟩
  | cons c cs ih =>
    rw [List.map_cons, List.nodup_cons] at hnd
    obtain ⟨text, hpath, hread⟩ := hfile c List.mem_cons_self
    have hload : load files s c = some (s.setBram c.memory c.bank c.lane (mem c.memory c.bank c.lane)) := by
      rw [load, hpath]
      show Option.bind (readmemh text _) _ = _
      rw [hread]; rfl
    obtain ⟨s', hrun, hin, hout, hstrb⟩ := ih hnd.2 (fun d hd => hfile d (List.mem_cons_of_mem _ hd))
      (s.setBram c.memory c.bank c.lane (mem c.memory c.bank c.lane))
    refine ⟨s', ?_, ?_, ?_, ?_⟩
    · rw [List.foldlM_cons, hload]; exact hrun
    · intro d hd
      rcases List.mem_cons.1 hd with rfl | hd
      · rw [hout _ _ _ hnd.1, bram_setBram_self]
      · exact hin d hd
    · intro m b l hne
      rw [List.map_cons, List.mem_cons, not_or] at hne
      rw [hout m b l hne.2, bram_setBram_of_ne _ _ hne.1]
    · intro m
      rw [hstrb, ramWstrb_setBram]

end Top

theorem readmemhs_nodup : (readmemhs.map fun c => (c.memory, c.bank, c.lane)).Nodup := by decide +kernel

/-- The number of a block RAM among all of them. -/
def blockOf (m : Memory) (bank : BitVec 2) : Nat :=
  match m with
  | .text => bank.toNat
  | .heap => 4 + bank.toNat

def cwd : List Char := "firmware/".toList

/-- Every block RAM is loaded. -/
theorem mem_readmemhs (m : Memory) (b l : BitVec 2) :
    (m, b, l) ∈ readmemhs.map fun c => (c.memory, c.bank, c.lane) := by
  revert b l
  cases m <;> decide

theorem number_of_mem : ∀ c ∈ readmemhs, c.number = decimal 2 (4 * blockOf c.memory c.bank + c.lane.toNat) := by
  decide +kernel

theorem path_of_mem {c : Readmemh} (hc : c ∈ readmemhs) :
    c.path = ramPath cwd firmwareBin (4 * blockOf c.memory c.bank + c.lane.toNat) := by
  have hstem : "firmware/hex/firmwareram".toList =
      cwd ++ "hex/".toList ++ firmwareBin.take (firmwareBin.length - 4) ++ "ram".toList := by decide +kernel
  calc c.path = "firmware/hex/firmwareram".toList ++ decimal 2 (4 * blockOf c.memory c.bank + c.lane.toNat) ++
        ".hex".toList := congrArg (_ ++ · ++ _) (number_of_mem c hc)
    _ = _ := congrArg (· ++ _ ++ _) hstem

/-- A file of 4096 lines fills its array. -/
theorem readmemh_lines (bs : List (BitVec 8)) (hbs : bs.length = 4096) (old : BitVec 12 → BitVec 8) :
    readmemh (lines bs) old = some fun x => bs.getD x.toNat 0 := by
  rw [readmemh, numbers_lines, Option.map_some, Option.some.injEq]
  funext x
  have hx : x.toNat < bs.length := by rw [hbs]; exact x.isLt
  rw [List.getElem?_map, List.getD_eq_getElem?_getD, List.getElem?_eq_getElem hx]
  simp only [Option.map_some, Option.getD_some, BitVec.ofNat_toNat, BitVec.setWidth_eq]

/-- The script and the loads put lane `l` of word `x` of a block where the block RAMs have it. -/
theorem bram_firmware {image : List (BitVec 8)} (h4 : image.length % 4 = 0) (hlen : image.length ≤ 131072) (s : Top) :
    ∃ files s', makehex cwd firmwareBin 131072 4096 image = some files ∧ s.loadAll files = some s' ∧
      (∀ m b l (x : BitVec 12), s'.bram m b l x = byteAt image (blockOf m b * 4096 + x.toNat) l) ∧
      ∀ m, (s'.memory m).ramWstrb = (s.memory m).ramWstrb := by
  obtain ⟨files, hrun, hfiles⟩ := makehex_spec (g := 8) (k := 12) cwd firmwareBin (by decide) (by omega) h4
  have hblock : ∀ m b, blockOf m b < 8 := by
    intro m b
    have hb : b.toNat < 4 := b.isLt
    cases m <;> simp only [blockOf] <;> omega
  have hfile : ∀ c ∈ readmemhs, ∃ text, files c.path = some text ∧ ∀ old, readmemh text old =
      some fun x => byteAt image (blockOf c.memory c.bank * 4096 + x.toNat) c.lane := by
    intro c hc
    refine ⟨_, by rw [path_of_mem hc]; exact hfiles _ _ (hblock _ _), fun old => ?_⟩
    rw [readmemh_lines _ (by rw [List.length_map, List.length_range']; rfl)]
    congr 1
    funext x
    rw [List.getD_eq_getElem?_getD, List.getElem?_map, List.getElem?_range' x.isLt, Option.map_some,
      Option.getD_some, Nat.one_mul]
    rfl
  obtain ⟨s', hload, hin, _, hstrb⟩ :=
    Top.foldlM_load (fun m b l x => byteAt image (blockOf m b * 4096 + x.toNat) l) readmemhs_nodup hfile s
  refine ⟨files, s', hrun, hload, fun m b l x => ?_, hstrb⟩
  obtain ⟨c, hc, he⟩ := List.mem_map.1 (mem_readmemhs m b l)
  rw [Prod.mk.injEq, Prod.mk.injEq] at he
  obtain ⟨rfl, rfl, rfl⟩ := he
  exact congrFun (hin c hc) x

/-- The memory of an address below `0x00020000`. -/
def memoryOf (a : BitVec 32) : Memory := if a.toNat < 65536 then .text else .heap

theorem byteAt_decoded (image : List (BitVec 8)) {a : BitVec 32} (ha : a.toNat < 131072) :
    byteAt image (blockOf (memoryOf a) (bankOf a) * 4096 + (offsetOf a).toNat) (laneOf a) = image.getD a.toNat 0 := by
  have hblock : blockOf (memoryOf a) (bankOf a) = a.toNat / 16384 := by
    rw [memoryOf]
    split_ifs with h
    · rw [blockOf, bankOf_toNat]; omega
    · rw [blockOf, bankOf_toNat]; omega
  rw [byteAt, hblock, offsetOf_toNat, laneOf_toNat]
  congr 1; omega

/-- Every byte of the two memories is the byte of the image at its address, or zero behind its end, and
that is what a read of its word finds in its lane. -/
theorem firmware_read (image : List (BitVec 8)) (h4 : image.length % 4 = 0) (hlen : image.length ≤ 131072) (s : Top) :
    ∃ files s', makehex cwd firmwareBin 131072 4096 image = some files ∧ s.loadAll files = some s' ∧
      ∀ a : BitVec 32, a.toNat < 131072 →
        (s'.memory (memoryOf a)).byte a = image.getD a.toNat 0 ∧
        ∀ p p₁ p₂ : MemPort, p.valid = true → p.covers a = true →
          (s.memory (memoryOf a)).ramWstrb (bankOf a) = 0 →
          byteLane ((((s'.memory (memoryOf a)).step p).step p₁).step p₂).memRdata (laneOf a) = image.getD a.toNat 0 := by
  obtain ⟨files, s', hrun, hload, hbram, hstrb⟩ := bram_firmware h4 hlen s
  refine ⟨files, s', hrun, hload, fun a ha => ?_⟩
  have hbyte : (s'.memory (memoryOf a)).byte a = image.getD a.toNat 0 :=
    (hbram _ _ _ _).trans (byteAt_decoded image ha)
  refine ⟨hbyte, fun p p₁ p₂ hv hcov hw => ?_⟩
  rw [MemPort.covers, Bool.and_eq_true, beq_iff_eq, beq_iff_eq] at hcov
  rw [Ram64KB.memRdata_step _ _ p₁ p₂ hv (by rw [hcov.1, hstrb]; exact hw),
    Ram64KB.byteLane_word _ _ hcov.1.symm hcov.2.symm, hbyte]

/-- An image of one word, read through the port of the text memory. -/
theorem firmware_read_word :
    ∃ files s', makehex cwd firmwareBin 131072 4096 [0xde, 0xad, 0xbe, 0xef] = some files ∧
      (Top.start []).loadAll files = some s' ∧ s'.textRam.byte 2 = 0xbe ∧ s'.sys.ram.byte 0x10000 = 0 ∧
      byteLane (((s'.textRam.step (.load 0)).step (.load 0)).step (.load 0)).memRdata 2 = 0xbe := by
  obtain ⟨files, s', hrun, hload, h⟩ := firmware_read [0xde, 0xad, 0xbe, 0xef] (by decide) (by decide) (Top.start [])
  have htext := h 2 (by decide)
  have hheap := h 0x10000 (by decide)
  exact ⟨files, s', hrun, hload, htext.1, hheap.1, htext.2 (.load 0) _ _ rfl (by decide) rfl⟩

end Picorv32Soc
