import Xv6Mlfq.Exec.Program
import Xv6Mlfq.Mkfs.Format
import Xv6Mlfq.Vm.Grow

/-!
# The segments of a program

The loop of `exec` over the program headers.  Whatever the file says, `loaduvm` only ever writes to
pages that `allocuvm` has mapped, so there are no faults; and as long as the loop goes on, the
new address space has the image of the segments loaded so far: the bytes of each segment where it
is to be, over those of the segments before it, and zero everywhere else.

## Main definitions

* `segments ip elf` — the headers of the segments to load.
* `image ip segs` — what the segments make of a memory of zeros.
* `Loaded ip segs sz r` — the address space at work is this image, and has the size `sz`.

## Main results

* `wp_loadSegs` — the loop.
* `image_alone` — the image, where segments do not overlap.
-/

namespace Xv6Mlfq.Exec

open Function (update update_self update_of_ne)
open Wp (wp wp_mono wp_bind wp_pure wp_look wp_modify)
open Blocks (Bytes)
open Vm (PGSIZE KERNBASE NUSER Pgdir Pte Single)
open Mem (Ram Grown KernelPart pages lt_pages wp_onMmu zeroed)

variable {F : String → Prop} {r r' : Ram} {ip : File}

/-! ## Reading -/

variable {off n va k : ℕ} {e : Pte}

/-- `readi` is what the one of the file system returns for an inode that holds the bytes. -/
theorem readi_inode {d : Blocks.Disk} {inode : Blocks.Dinode} {devsw : Blocks.Devsw}
    (h : Mkfs.Holds d inode ip.bytes) (hsize : inode.size = ip.bytes.length)
    (htype : inode.type ≠ .dev) (ho : off < 2 ^ 32) (hn : n < 2 ^ 32) :
    Blocks.readi Mkfs.sb devsw inode off n d = .ok ((readi ip off n, inode), d) := by
  rw [Mkfs.readi_eq h hsize htype hn, readi]
  by_cases hok : off ≤ ip.bytes.length ∧ off + n < 2 ^ 32
  · rw [if_pos hok, if_neg (by omega)]
  · rw [if_neg hok, if_pos (by omega)]

theorem readi_some {bs : List UInt8} (h : readi ip off n = some bs) (hlen : bs.length = n) :
    off + n ≤ ip.bytes.length ∧ ∀ j < n, bs.getD j 0 = ip.bytes.getD (off + j) 0 := by
  rw [readi] at h
  split_ifs at h with hbad
  cases h
  rw [List.length_take, List.length_drop] at hlen
  refine ⟨by omega, ?_⟩
  intro j hj
  rw [List.getD_eq_getElem?_getD, List.getD_eq_getElem?_getD, List.getElem?_take_of_lt hj,
    List.getElem?_drop]

theorem readi_fits (h : off + n ≤ ip.bytes.length) :
    readi ip off n ≠ none ∧ ∀ bs, readi ip off n = some bs → bs.length = n := by
  have hsize := ip.size_lt
  rw [readi, if_neg (by omega)]
  refine ⟨nofun, ?_⟩
  rintro _ ⟨⟩
  rw [List.length_take, List.length_drop]
  omega

theorem word_lt (b : Bytes) (k : ℕ) : b.word k < 2 ^ 32 := by
  have h₀ := (b (4 * k)).toNat_lt
  have h₁ := (b (4 * k + 1)).toNat_lt
  have h₂ := (b (4 * k + 2)).toNat_lt
  have h₃ := (b (4 * k + 3)).toNat_lt
  rw [Bytes.word]
  omega

theorem readProghdr_lt {ph : Proghdr} (h : readProghdr ip off = some ph) :
    ph.off < 2 ^ 32 ∧ ph.vaddr < 2 ^ 32 ∧ ph.filesz < 2 ^ 32 ∧ ph.memsz < 2 ^ 32 := by
  rw [readProghdr, Option.map_eq_some_iff] at h
  obtain ⟨b, -, rfl⟩ := h
  exact ⟨word_lt _ _, word_lt _ _, word_lt _ _, word_lt _ _⟩

/-! ## Contents -/

/-- The byte at a user address -/
def byte (r : Ram) (va : ℕ) : Option UInt8 :=
  (r.user (va / PGSIZE)).map fun p => p.2 (va % PGSIZE)

theorem byte_congr (h : r'.user (va / PGSIZE) = r.user (va / PGSIZE)) : byte r' va = byte r va := by
  rw [byte, byte, h]

/-- A page is written. -/
theorem user_write {j : ℕ} (hs : Single r.toMmu) (hk : k < NUSER) (hj : j < NUSER)
    (he : r.pgdir.entry k = some e) (c : Bytes) :
    Ram.user ⟨r.toMmu, update r.mem e.addr c⟩ j = if j = k then some (e, c) else r.user j := by
  by_cases hjk : j = k
  · subst hjk
    rw [if_pos rfl, Ram.user, he]
    exact congrArg (fun c => some (e, c)) (update_self e.addr c r.mem)
  · rw [if_neg hjk]
    have hmem : ∀ e', r.pgdir.entry j = some e' → update r.mem e.addr c e'.addr =
        r.mem e'.addr := by
      intro e' he'
      apply update_of_ne
      intro haddr
      exact hjk (hs.inj hj hk he' he haddr)
    exact Mem.user_congr (by rfl) hmem

/-- Nothing has changed but the contents of pages of the address space, or of free ones. -/
structure Wrote (r r' : Ram) : Prop where
  mmu : r'.toMmu = r.toMmu
  mem : ∀ x, r.total x = 0 → r'.mem x = r.mem x

theorem Wrote.refl (r : Ram) : Wrote r r := ⟨rfl, fun _ _ => rfl⟩

theorem Wrote.within (h : Wrote r r') : Mem.Within r r' := ⟨fun x => by rw [h.mmu], h.mem⟩

theorem Wrote.trans {r₁ r₂ : Ram} (h : Wrote r r₁) (h' : Wrote r₁ r₂) : Wrote r r₂ :=
  ⟨h'.mmu.trans h.mmu, (h.within.trans h'.within).mem⟩

theorem Wrote.page (hk : k < NUSER) (he : r.pgdir.entry k = some e) (c : Bytes) :
    Wrote r ⟨r.toMmu, update r.mem e.addr c⟩ := by
  refine ⟨rfl, ?_⟩
  intro x hx
  apply update_of_ne
  rintro rfl
  have hpos := Vm.mapped_pos hk he
  simp only [Vm.Mmu.total, Pgdir.refs] at hx
  omega

theorem wp_memmove {pg o : ℕ} {src : List UInt8} {Q : Unit → Ram → Prop} :
    wp F (memmove pg o src) Q r ↔
      Q () ⟨r.toMmu, update r.mem pg (Bytes.move (r.mem pg) o src)⟩ :=
  wp_modify

/-- Bytes are written to a page. -/
theorem byte_memmove {o : ℕ} {src : List UInt8} (hs : Single r.toMmu) (hk : k < NUSER)
    (hva : va < KERNBASE) (he : r.pgdir.entry k = some e) (hfit : o + src.length ≤ PGSIZE) :
    byte ⟨r.toMmu, update r.mem e.addr (Bytes.move (r.mem e.addr) o src)⟩ va =
      if k * PGSIZE + o ≤ va ∧ va < k * PGSIZE + o + src.length then
        some (src.getD (va - (k * PGSIZE + o)) 0)
      else byte r va := by
  have hj : va / PGSIZE < NUSER := by lia
  rw [byte, user_write hs hk hj he]
  by_cases hpage : va / PGSIZE = k
  · subst hpage
    rw [if_pos rfl, Option.map_some, byte, Ram.user, he]
    simp only [Bytes.move]
    by_cases hin : o ≤ va % PGSIZE ∧ va % PGSIZE < o + src.length
    · have hoff : va % PGSIZE - o = va - (va / PGSIZE * PGSIZE + o) := by lia
      rw [if_pos hin, if_pos (by lia), hoff]
    · rw [if_neg hin, if_neg (by lia)]
      rfl
  · rw [if_neg hpage, if_neg (by lia), byte]

/-! ## `loaduvm` -/

/-- The pages from `addr` up to `addr + sz` are mapped. -/
def Mapped (r : Ram) (addr sz : ℕ) : Prop :=
  ∀ k < NUSER, addr ≤ k * PGSIZE → k * PGSIZE < addr + sz → r.pgdir.entry k ≠ none

theorem wp_readPage (hs : Single r.toMmu) (hk : k < NUSER)
    (he : r.pgdir.entry k = some e) (hn : n ≤ PGSIZE) :
    wp F (readPage ip e.addr off n) (fun ok r' => Wrote r r' ∧ (ok = true →
      off + n ≤ ip.bytes.length ∧ ∀ va < KERNBASE, byte r' va =
        if k * PGSIZE ≤ va ∧ va < k * PGSIZE + n then
          some (ip.bytes.getD (off + (va - k * PGSIZE)) 0)
        else byte r va) ∧ (off + n ≤ ip.bytes.length → ok = true)) r := by
  rw [readPage]
  cases hread : readi ip off n with
  | none =>
    apply wp_pure.mpr
    exact ⟨.refl r, nofun, fun hfits => absurd hread (readi_fits hfits).1⟩
  | some bs =>
    rw [wp_bind, wp_memmove, wp_pure]
    refine ⟨.page hk he _, fun hok => ?_, fun hfits =>
      decide_eq_true ((readi_fits hfits).2 bs hread)⟩
    have hlen : bs.length = n := of_decide_eq_true hok
    obtain ⟨hfits, hbytes⟩ := readi_some hread hlen
    refine ⟨hfits, ?_⟩
    intro va hva
    rw [byte_memmove hs hk hva he (by omega), Nat.add_zero, hlen]
    split_ifs with hin
    · rw [hbytes _ (by omega)]
    · rfl

theorem page_of_segment {k₀ t i sz : ℕ} (hi : i = t * PGSIZE) (hend : k₀ * PGSIZE + sz < KERNBASE)
    (hlt : i < sz) : k₀ + t < NUSER ∧ (k₀ + t) * PGSIZE = k₀ * PGSIZE + i ∧
      (k₀ * PGSIZE + i) % 2 ^ 32 = (k₀ + t) * PGSIZE := by
  lia

/-- What is loaded from `i` on is a page and the rest. -/
theorem load_split {b i sz offset : ℕ} {f : ℕ → UInt8} {old : Option UInt8} :
    (if b + (i + PGSIZE) ≤ va ∧ va < b + sz then some (f (offset + (va - b)))
      else if b + i ≤ va ∧ va < b + i + min (sz - i) PGSIZE then
        some (f (offset + i + (va - (b + i))))
      else old) =
    if b + i ≤ va ∧ va < b + sz then some (f (offset + (va - b))) else old := by
  by_cases hrest : b + (i + PGSIZE) ≤ va ∧ va < b + sz
  · rw [if_pos hrest, if_pos (by omega)]
  · rw [if_neg hrest]
    by_cases hin : b + i ≤ va ∧ va < b + i + min (sz - i) PGSIZE
    · have hdist : offset + i + (va - (b + i)) = offset + (va - b) := by omega
      rw [if_pos hin, if_pos (by omega), hdist]
    · rw [if_neg hin, if_neg (by omega)]

/-- The loop of `loaduvm`, by induction on its rounds: it has come to page `t` of the segment. -/
theorem wp_loadLoop {k₀ offset sz fuel t i : ℕ} (hs : Single r.toMmu)
    (hm : Mapped r (k₀ * PGSIZE) sz) (hend : k₀ * PGSIZE + sz < KERNBASE)
    (hi : i = t * PGSIZE) (hfuel : sz ≤ i + fuel * PGSIZE) (hoff : i < sz → offset + i < 2 ^ 32) :
    wp F (loadLoop (k₀ * PGSIZE) ip offset sz fuel i) (fun ok r' =>
      Wrote r r' ∧ (ok = true → (i < sz → offset + sz ≤ ip.bytes.length) ∧
        ∀ va < KERNBASE, byte r' va =
          if k₀ * PGSIZE + i ≤ va ∧ va < k₀ * PGSIZE + sz then
            some (ip.bytes.getD (offset + (va - k₀ * PGSIZE)) 0)
          else byte r va) ∧ (offset + sz ≤ ip.bytes.length → ok = true)) r := by
  induction fuel generalizing t i r with
  | zero =>
    apply wp_pure.mpr
    refine ⟨.refl r, fun _ => ⟨by omega, ?_⟩, fun _ => rfl⟩
    intro va _
    rw [if_neg (by omega)]
  | succ fuel ih =>
    rw [loadLoop]
    by_cases hlt : i < sz
    swap
    · rw [if_neg hlt, wp_pure]
      refine ⟨.refl r, fun _ => ⟨by omega, ?_⟩, fun _ => rfl⟩
      intro va _
      rw [if_neg (by omega)]
    obtain ⟨hk, hpage, hva⟩ := page_of_segment hi hend hlt
    have hge : k₀ * PGSIZE ≤ (k₀ + t) * PGSIZE := by
      rw [hpage]
      exact Nat.le_add_right _ _
    have hlt' : (k₀ + t) * PGSIZE < k₀ * PGSIZE + sz := by
      rw [hpage]
      exact Nat.add_lt_add_left hlt _
    obtain ⟨e, he⟩ := Option.ne_none_iff_exists'.mp (hm (k₀ + t) hk hge hlt')
    obtain ⟨-, hpde, hpte, -⟩ := Vm.entry_isSome_pde he
    rw [if_pos hlt, hva, Nat.mod_eq_of_lt (hoff hlt)]
    apply wp_bind.mpr
    apply wp_onMmu.mpr
    apply wp_mono Vm.wp_walkpgdir
    rintro there m₁ ⟨-, hm₁, -, hnone⟩
    obtain rfl := hm₁ rfl
    by_cases ht : there = false
    · rw [hnone ht] at hpde
      cases hpde
    rw [if_neg ht, wp_bind, wp_look, hpte, Option.getD_some, wp_bind]
    have hsize : (if sz - i < PGSIZE then sz - i else PGSIZE) = min (sz - i) PGSIZE := by
      split_ifs <;> omega
    rw [hsize]
    apply wp_mono (wp_readPage hs hk he (min_le_right _ _))
    rintro ok r₁ ⟨hwrote, hread, hshort⟩
    have hsame := hwrote.mmu
    by_cases hok : ok = true
    swap
    · rw [if_neg hok, wp_pure]
      exact ⟨hwrote, nofun, fun hfits => absurd (hshort (by omega)) hok⟩
    obtain ⟨hfits, hbytes⟩ := hread hok
    have hnext : i + PGSIZE = (t + 1) * PGSIZE := by rw [hi, Nat.succ_mul]
    have hmore : sz ≤ i + PGSIZE + fuel * PGSIZE := by
      rw [Nat.succ_mul] at hfuel
      omega
    have hsize := ip.size_lt
    rw [if_pos hok]
    apply wp_mono (ih (hsame ▸ hs) ?_ hnext hmore (by omega))
    · rintro ok' r' ⟨hwrote', hrest, hall⟩
      refine ⟨hwrote.trans hwrote', fun hok' => ?_, hall⟩
      obtain ⟨hfits', hbytes'⟩ := hrest hok'
      refine ⟨fun _ => by omega, ?_⟩
      intro va hva'
      rw [hbytes' va hva', hbytes va hva', hpage]
      exact load_split (f := fun x => ip.bytes.getD x 0)
    · intro k hk' h₁ h₂
      rw [hsame]
      exact hm k hk' h₁ h₂

theorem wp_loaduvm {addr offset sz : ℕ} (hs : Single r.toMmu) (halign : addr % PGSIZE = 0)
    (hm : Mapped r addr sz) (hend : addr + sz < KERNBASE) (hoff : offset < 2 ^ 32) :
    wp F (loaduvm addr ip offset sz) (fun ok r' => Wrote r r' ∧ (ok = true →
      (0 < sz → offset + sz ≤ ip.bytes.length) ∧
      ∀ va < KERNBASE, byte r' va = if addr ≤ va ∧ va < addr + sz then
        some (ip.bytes.getD (offset + (va - addr)) 0) else byte r va) ∧
      (offset + sz ≤ ip.bytes.length → ok = true)) r := by
  obtain ⟨k₀, rfl⟩ : ∃ k₀, addr = k₀ * PGSIZE :=
    ⟨addr / PGSIZE, (Nat.div_mul_cancel (Nat.dvd_of_mod_eq_zero halign)).symm⟩
  have hfuel : sz ≤ 0 + (sz / PGSIZE + 1) * PGSIZE := by
    rw [Nat.zero_add]
    exact (Nat.lt_mul_of_div_lt (Nat.lt_succ_self _) (by norm_num)).le
  rw [loaduvm, if_neg (not_not.mpr halign)]
  apply wp_mono (wp_loadLoop (t := 0) hs hm hend (Nat.zero_mul _).symm hfuel fun _ => hoff)
  rintro ok r' ⟨hsame, hload, hall⟩
  refine ⟨hsame, fun hok => ⟨(hload hok).1, ?_⟩, hall⟩
  intro va hva
  rw [(hload hok).2 va hva, Nat.add_zero]

/-! ## The image -/

/-- The address is one of the segment's. -/
def Proghdr.Covers (s : Proghdr) (va : ℕ) : Prop := s.vaddr ≤ va ∧ va < s.vaddr + s.memsz

/-- The bytes of the segment over those of `img` -/
def overlay (ip : File) (img : ℕ → UInt8) (s : Proghdr) (va : ℕ) : UInt8 :=
  if s.vaddr ≤ va ∧ va < s.vaddr + s.filesz then ip.bytes.getD (s.off + (va - s.vaddr)) 0
  else img va

/-- What the segments make of a memory of zeros -/
def image (ip : File) (segs : List Proghdr) : ℕ → UInt8 := segs.foldl (overlay ip) fun _ => 0

theorem image_concat (ip : File) (segs : List Proghdr) (s : Proghdr) :
    image ip (segs ++ [s]) = overlay ip (image ip segs) s := by
  rw [image, image, List.foldl_append]
  rfl

theorem foldl_overlay {segs : List Proghdr} {img : ℕ → UInt8}
    (h : ∀ s ∈ segs, ¬ (s.vaddr ≤ va ∧ va < s.vaddr + s.filesz)) :
    segs.foldl (overlay ip) img va = img va := by
  induction segs generalizing img with
  | nil => rfl
  | cons s segs ih =>
    rw [List.foldl_cons, ih fun s' hs' => h s' (List.mem_cons_of_mem _ hs'), overlay,
      if_neg (h s List.mem_cons_self)]

/-- A segment that no other one overlaps is in the image as it is in the file. -/
theorem image_alone {before after : List Proghdr} {s : Proghdr} (hva : s.Covers va)
    (hsize : ∀ s' ∈ before ++ after, s'.filesz ≤ s'.memsz)
    (halone : ∀ s' ∈ before ++ after, ¬ s'.Covers va) :
    image ip (before ++ s :: after) va =
      if va < s.vaddr + s.filesz then ip.bytes.getD (s.off + (va - s.vaddr)) 0 else 0 := by
  have hout : ∀ s' ∈ before ++ after, ¬ (s'.vaddr ≤ va ∧ va < s'.vaddr + s'.filesz) := by
    intro s' hs' hin
    have hle := hsize s' hs'
    exact halone s' hs' ⟨hin.1, by omega⟩
  rw [image, List.foldl_append, List.foldl_cons,
    foldl_overlay fun s' hs' => hout s' (List.mem_append_right _ hs'), overlay,
    foldl_overlay fun s' hs' => hout s' (List.mem_append_left _ hs')]
  by_cases hin : va < s.vaddr + s.filesz
  · rw [if_pos ⟨hva.1, hin⟩, if_pos hin]
  · rw [if_neg (fun h => hin h.2), if_neg hin]

/-! ## The loop over the headers -/

/-- The address space at work has the size `sz`, and is the image of the segments. -/
structure Loaded (ip : File) (segs : List Proghdr) (sz : ℕ) (r : Ram) : Prop where
  single : Single r.toMmu
  kernel : KernelPart r.pgdir
  lt : sz < KERNBASE
  mapped : ∀ k < pages sz, ∃ pa, r.pgdir.entry k = some ⟨true, ⟨true, true⟩, pa⟩
  above : ∀ k < NUSER, pages sz ≤ k → r.pgdir.entry k = none
  fits : ∀ s ∈ segs, s.filesz ≤ s.memsz ∧ s.vaddr + s.memsz ≤ sz ∧
    (0 < s.filesz → s.off + s.filesz ≤ ip.bytes.length)
  byte : ∀ va, va / PGSIZE < pages sz → byte r va = some (image ip segs va)

variable {segs : List Proghdr} {sz : ℕ}

theorem Loaded.image_above (h : Loaded ip segs sz r) (hva : sz ≤ va) : image ip segs va = 0 := by
  apply foldl_overlay
  intro s hs hin
  obtain ⟨hle, hend, -⟩ := h.fits s hs
  omega

theorem Loaded.mapped_seg (h : Loaded ip segs sz r) {addr n : ℕ} (hle : addr + n ≤ sz) :
    Mapped r addr n := by
  intro k _ _ hk
  obtain ⟨pa, hentry⟩ := h.mapped k (lt_pages.mpr (by omega))
  rw [hentry]
  nofun

/-- `allocuvm` adds pages of zeros. -/
theorem Loaded.grow {sz' : ℕ} (h : Loaded ip segs sz r) (hle : sz ≤ sz') (hlt : sz' < KERNBASE)
    (hg : Grown zeroed (pages sz) (pages sz') r r') : Loaded ip segs sz' r' := by
  have hmono := Mem.pages_mono hle
  have hmax := Mem.pages_le hlt.le
  refine ⟨h.single.of_total hg.total, ⟨?_, ?_⟩, hlt, ?_, ?_, ?_, ?_⟩
  · intro j e hj he
    rw [hg.kept j (by omega)] at he
    exact h.kernel.supervisor j e hj he
  · intro j hdev hj
    have hhigh : NUSER ≤ j := by lia
    rw [hg.kept j (by omega)]
    exact h.kernel.devices j hdev hj
  · intro k hk
    by_cases hold : k < pages sz
    · rw [hg.kept k (by omega)]
      exact h.mapped k hold
    · obtain ⟨pa, -, hentry, -⟩ := hg.fresh k (by omega) hk
      exact ⟨pa, hentry⟩
  · intro k hk hge
    rw [hg.kept k (by omega)]
    exact h.above k hk (by omega)
  · intro s hs
    obtain ⟨hfile, hend, hoff⟩ := h.fits s hs
    exact ⟨hfile, hend.trans hle, hoff⟩
  · intro va hva
    by_cases hold : va / PGSIZE < pages sz
    · rw [byte_congr (hg.user h.single (by omega) (by omega))]
      exact h.byte va hold
    · obtain ⟨pa, -, hentry, hzero⟩ := hg.fresh (va / PGSIZE) (by omega) hva
      have hge : sz ≤ va := by
        rw [lt_pages] at hold
        have := Nat.div_mul_le_self va PGSIZE
        omega
      rw [h.image_above hge, Exec.byte, Ram.user, hentry, Option.map_some, Option.map_some, hzero]
      rfl

/-- `loaduvm` adds the bytes of a segment. -/
theorem Loaded.load {s : Proghdr} (h : Loaded ip segs sz r) (hsame : r'.toMmu = r.toMmu)
    (hfile : s.filesz ≤ s.memsz) (hend : s.vaddr + s.memsz ≤ sz)
    (hoff : 0 < s.filesz → s.off + s.filesz ≤ ip.bytes.length)
    (hbyte : ∀ va < KERNBASE, Exec.byte r' va = if s.vaddr ≤ va ∧ va < s.vaddr + s.filesz then
      some (ip.bytes.getD (s.off + (va - s.vaddr)) 0) else Exec.byte r va) :
    Loaded ip (segs ++ [s]) sz r' := by
  have hmax := Mem.pages_le h.lt.le
  refine ⟨hsame ▸ h.single, hsame ▸ h.kernel, h.lt, hsame ▸ h.mapped, hsame ▸ h.above, ?_, ?_⟩
  · intro s' hs'
    rcases List.mem_append.mp hs' with hs' | hs'
    · exact h.fits s' hs'
    · rw [List.mem_singleton.mp hs']
      exact ⟨hfile, hend, hoff⟩
  · intro va hva
    have hlow : va < KERNBASE := by lia
    rw [hbyte va hlow, image_concat, overlay, h.byte va hva]
    split_ifs <;> rfl

/-- One segment: whatever the header says, there is no fault. -/
theorem wp_loadSeg {ph : Proghdr} (h : Loaded ip segs sz r) (hread : readProghdr ip off = some ph) :
    wp F (loadSeg ip ph sz) (fun res r' => Mem.Within r r' ∧
      ∀ sz', res = some sz' → sz' = max sz (ph.vaddr + ph.memsz) ∧ Loaded ip (segs ++ [ph]) sz' r')
      r := by
  obtain ⟨hoff, hvaddr, -, hmemsz⟩ := readProghdr_lt hread
  rw [loadSeg]
  by_cases hfile : ph.memsz < ph.filesz
  · rw [if_pos hfile, wp_pure]
    exact ⟨.refl r, nofun⟩
  by_cases hwrap : (ph.vaddr + ph.memsz) % 2 ^ 32 < ph.vaddr
  · rw [if_neg hfile, if_pos hwrap, wp_pure]
    exact ⟨.refl r, nofun⟩
  have hsum : (ph.vaddr + ph.memsz) % 2 ^ 32 = ph.vaddr + ph.memsz := by omega
  rw [if_neg hfile, if_neg hwrap, hsum, wp_bind]
  apply wp_mono (Mem.wp_allocuvm h.single h.lt.le h.above)
  intro sz' r₁ halloc
  have hwithin : Mem.Within r r₁ := by
    rcases halloc with ⟨-, hu⟩ | ⟨-, -, hg⟩
    · exact hu.within
    · exact hg.within
  by_cases hzero : sz' = 0
  · rw [if_pos hzero, wp_pure]
    exact ⟨hwithin, nofun⟩
  by_cases halign : ph.vaddr % PGSIZE = 0
  swap
  · rw [if_neg hzero, if_pos halign, wp_pure]
    exact ⟨hwithin, nofun⟩
  obtain ⟨hlt, hmax, hg⟩ := halloc.resolve_left fun hfail => hzero hfail.1
  have hl : Loaded ip segs sz' r₁ := h.grow (by omega) (by have := h.lt; omega) hg
  rw [if_neg hzero, if_neg (not_not.mpr halign), wp_bind]
  apply wp_mono (wp_loaduvm hl.single halign (hl.mapped_seg (by omega)) (by omega) hoff)
  rintro ok r₂ ⟨hwrote, hload, -⟩
  have hwithin₂ := hwithin.trans hwrote.within
  by_cases hok : ok = true
  swap
  · rw [if_neg hok, wp_pure]
    exact ⟨hwithin₂, nofun⟩
  · rw [if_pos hok, wp_pure]
    refine ⟨hwithin₂, ?_⟩
    rintro _ ⟨⟩
    exact ⟨hmax, hl.load hwrote.mmu (by omega) (by omega) (hload hok).1 (hload hok).2⟩

/-- The segments that the headers from `off` on ask to be loaded -/
def segsFrom (ip : File) : ℕ → ℕ → Option (List Proghdr)
  | 0, _ => some []
  | n + 1, off =>
    (readProghdr ip off).bind fun ph =>
      (segsFrom ip n ((off + proghdrSize) % 2 ^ 32)).map fun segs =>
        if ph.type = ELF_PROG_LOAD then ph :: segs else segs

/-- The segments of a program, if all headers can be read -/
def segments (ip : File) : Option (List Proghdr) :=
  (readElfhdr ip).bind fun elf => segsFrom ip elf.phnum elf.phoff

/-- The end of the last segment -/
def endOf (segs : List Proghdr) (sz : ℕ) : ℕ := segs.foldl (fun m s => max m (s.vaddr + s.memsz)) sz

/-- The loop of `exec` over the headers, by induction on the number that is left -/
theorem wp_loadSegs (h : Loaded ip segs sz r) :
    wp F (loadSegs ip n off sz) (fun res r' => Mem.Within r r' ∧
      ∀ sz', res = some sz' → ∃ segs', segsFrom ip n off = some segs' ∧ sz' = endOf segs' sz ∧
        Loaded ip (segs ++ segs') sz' r') r := by
  induction n generalizing off sz segs r with
  | zero =>
    apply wp_pure.mpr
    refine ⟨.refl r, ?_⟩
    rintro sz' ⟨⟩
    refine ⟨[], rfl, rfl, ?_⟩
    rwa [List.append_nil]
  | succ n ih =>
    rw [loadSegs, segsFrom]
    cases hread : readProghdr ip off with
    | none =>
      apply wp_pure.mpr
      exact ⟨.refl r, nofun⟩
    | some ph =>
      dsimp only
      by_cases htype : ph.type = ELF_PROG_LOAD
      swap
      · rw [if_pos htype]
        apply wp_mono (ih h)
        rintro res r' ⟨hwithin, hres⟩
        refine ⟨hwithin, ?_⟩
        intro sz' hsz'
        obtain ⟨segs', hsegs, hend, hl⟩ := hres sz' hsz'
        refine ⟨segs', ?_, hend, hl⟩
        rw [Option.bind_some, hsegs, Option.map_some, if_neg htype]
      rw [if_neg (not_not.mpr htype), wp_bind]
      apply wp_mono (wp_loadSeg h hread)
      rintro res r₁ ⟨hwithin₁, hone⟩
      cases res with
      | none =>
        apply wp_pure.mpr
        exact ⟨hwithin₁, nofun⟩
      | some sz₁ =>
        obtain ⟨hmax, hl₁⟩ := hone sz₁ rfl
        apply wp_mono (ih hl₁)
        rintro res r' ⟨hwithin, hres⟩
        refine ⟨hwithin₁.trans hwithin, ?_⟩
        intro sz' hsz'
        obtain ⟨segs', hsegs, hend, hl⟩ := hres sz' hsz'
        refine ⟨ph :: segs', ?_, ?_, ?_⟩
        · rw [Option.bind_some, hsegs, Option.map_some, if_pos htype]
        · rw [hend, hmax]
          rfl
        · rwa [List.append_assoc] at hl

end Xv6Mlfq.Exec
