import Pintos.Malloc.Usable

/-!
# The heap in every state

Whatever is asked of the heap, in requests of no more than 2^31 bytes, and whether or not there are
pages for it: the free lists have the free blocks, once each, blocks do not overlap, and an arena is
there as long as one of its blocks is held.
-/

namespace Pintos.Malloc

open Pintos.Lib Pintos.Lib.Memory

variable {h h' : Heap} {as as' : List Arena} {free free' : Nat → List Nat} {r : Arena} {b size : Nat}
  {d₀ : Nat} {m₀ : Memory}

/-- The addresses of the blocks that are held. -/
def Heap.liveBlocks (h : Heap) : List Nat := h.live.map Prod.fst

/-- The arenas `as` are in memory, with the free lists `free`, and the live blocks are in them. -/
structure Tidy (h : Heap) (as : List Arena) (free : Nat → List Nat) : Prop where
  inv : Inv h as free
  once : ∀ i < 7, (free i).Nodup ∧ ∀ b, b ∈ free i ↔
    (∃ a ∈ as, a.desc = some i ∧ b ∈ a.blocks) ∧ b ∉ h.liveBlocks
  freeCnt : ∀ a ∈ as, ∀ i, a.desc = some i →
    h.freeCnt a.addr = (free i).countP (· ∈ a.blocks) ∧ h.freeCnt a.addr < (desc i).blocksPerArena
  liveOrFree : ∀ a ∈ as, ∀ b ∈ a.blocks, b ∈ h.liveBlocks ↔ ∀ i < 7, b ∉ free i
  blocks : ∀ x ∈ h.live, ∃ a ∈ as, x.1 ∈ a.blocks ∧ x.2 ≤ a.size
  nodup : h.liveBlocks.Nodup
  disjoint : ∀ a ∈ as, ∀ b ∈ a.blocks, b ∈ h.liveBlocks → ∀ a' ∈ as, ∀ b' ∈ a'.blocks,
    b' ∈ h.liveBlocks → b ≠ b' → b + a.size ≤ b' ∨ b' + a'.size ≤ b
  offHeaders : ∀ a ∈ as, ∀ b ∈ a.blocks, b ∈ h.liveBlocks → ∀ a' ∈ as,
    b + a.size ≤ a'.addr ∨ a'.addr + 12 ≤ b
  used : ∀ a ∈ as, ∃ b ∈ a.blocks, b ∈ h.liveBlocks

/-- The count of an arena, by blocks. -/
theorem Inv.count_blocks (hi : Inv h as free) {i : Nat} (hr : r ∈ as) (hd : r.desc = some i) :
    h.freeCnt r.addr = (free i).countP (· ∈ r.blocks) := by
  have hlt := ((hi.proper r hr).small i hd).1
  have hcnt := (hi.header r hr).freeCnt
  unfold Arena.count at hcnt
  rw [hd] at hcnt
  rw [hcnt]
  refine List.countP_congr fun b hb => ?_
  rw [beq_iff_eq, decide_eq_true_iff]
  refine ⟨fun hpage => ?_, (hi.proper r hr).page_of_block⟩
  obtain ⟨r', hr', -, hb'⟩ := hi.elems i hlt b hb
  have hpage' := (hi.proper r' hr').page_of_block hb'
  by_cases heq : r' = r
  · exact heq ▸ hb'
  · have hapart := hi.arenas_apart hr' hr heq
    have hpos := (hi.proper r hr).pageCnt
    have hpos' := (hi.proper r' hr').pageCnt
    unfold Arena.Apart at hapart
    omega

theorem Sound.tidy (hs : Sound h as free) (hf : Fits h as) : Tidy h as free where
  inv := hs.inv
  once := by
    intro i hi
    refine ⟨hs.inv.nodup i hi, fun b => ⟨fun hb => ⟨hs.inv.elems i hi b hb, fun hlive => ?_⟩, ?_⟩⟩
    · exact ((hs.live b).mp hlive).2 i hi hb
    · rintro ⟨⟨a, ha, hd, hb⟩, hlive⟩
      by_contra hnot
      refine hlive ((hs.live b).mpr ⟨⟨a, ha, hb⟩, fun j hj hbj => hnot ?_⟩)
      obtain ⟨a', ha', hd', hb'⟩ := hs.inv.elems j hj b hbj
      rw [hs.inv.arena_unique ha' hb' ha hb, hd] at hd'
      exact Option.some.inj hd' ▸ hbj
  freeCnt := by
    intro a ha i hd
    have hi := ((hs.inv.proper a ha).small i hd).1
    refine ⟨hs.inv.count_blocks ha hd, ?_⟩
    have hcnt := (hs.inv.header a ha).freeCnt
    unfold Arena.count at hcnt
    rw [hd] at hcnt
    rw [hcnt]
    obtain ⟨hle, hfull⟩ := countP_page hs.inv.proper hs.inv.apart (hs.inv.nodup i hi)
      (hs.inv.elems i hi) ha hd
    refine Nat.lt_of_le_of_ne hle fun heq => ?_
    obtain ⟨b, hb, hheld⟩ := hs.used a ha
    exact hheld.2 i hi (hfull.mp heq b hb)
  liveOrFree := by
    intro a ha b hb
    exact (hs.live b).trans (and_iff_right ⟨a, ha, hb⟩)
  blocks := by
    intro x hx
    obtain ⟨a, ha, hb, -⟩ := hs.held (List.mem_map.mpr ⟨x, hx, rfl⟩)
    exact ⟨a, ha, hb, hf x hx a ha hb⟩
  nodup := hs.nodup
  disjoint := fun a ha b hb _ a' ha' b' hb' _ hne => hs.inv.block_block ha hb ha' hb' hne
  offHeaders := fun a ha b hb _ a' ha' => hs.inv.block_header ha hb ha'
  used := by
    intro a ha
    obtain ⟨b, hb, hheld⟩ := hs.used a ha
    exact ⟨b, hb, (hs.live b).mpr hheld⟩

/-- An arena has its pages as long as one of its blocks is held. -/
theorem Follows.pages (hfollows : Follows as h' as' free') (hs : Sound h' as' free') (hr : r ∈ as)
    {p : Nat} (hlow : r.page ≤ p) (hhigh : p < r.page + r.pageCnt) :
    p ∈ h'.pages ↔ ∃ b ∈ r.blocks, b ∈ h'.liveBlocks := by
  rcases hfollows r hr with hkept | ⟨hgone, hnone⟩
  · refine iff_of_true ((hs.inv.pages p).mpr ⟨r, hkept, hlow, hhigh⟩) ?_
    obtain ⟨b, hb, hheld⟩ := hs.used r hkept
    exact ⟨b, hb, (hs.live b).mpr hheld⟩
  · refine iff_of_false (hgone p hlow hhigh) ?_
    rintro ⟨b, hb, hlive⟩
    exact hnone b hb ((hs.live b).mp hlive)

/-! ## What fails changes nothing -/

theorem Sound.malloc_none (hs : Sound h as free) {page : Option Nat}
    (hnone : Malloc.malloc size page h = .ok (none, h')) : h' = h := by
  have hgiven := hs.malloc size page
  rw [hnone] at hgiven
  cases hgiven
  rfl

theorem Sound.calloc_none (hs : Sound h as free) {a b : Nat} {page : Option Nat}
    (hnone : Malloc.calloc a b page h = .ok (none, h')) : h' = h := by
  have hcleared := hs.calloc a b page
  rw [hnone] at hcleared
  cases hcleared
  rfl

theorem Sound.realloc_none (hs : Sound h as free) {p page : Option Nat} (hholds : h.Holds p)
    (hsize : size ≠ 0) (hnone : Malloc.realloc p size page h = .ok (none, h')) : h' = h := by
  cases p with
  | none =>
    unfold Malloc.realloc at hnone
    rw [if_neg hsize] at hnone
    obtain ⟨⟨p, h₁⟩, hmalloc, hrest⟩ := bind_eq_ok.mp hnone
    cases hrest
    exact hs.malloc_none hmalloc
  | some old =>
    have hmoved := hs.realloc (hholds old rfl) hsize page
    rw [hnone] at hmoved
    cases hmoved
    rfl

/-- `realloc` keeps the bytes of the old block, as far as the new one goes. -/
theorem Sound.realloc_copies (hs : Sound h as free) (hf : Fits h as) {old oldSize : Nat}
    {page : Option Nat} (hold : (old, oldSize) ∈ h.live)
    (hok : Malloc.realloc (some old) size page h = .ok (some b, h')) :
    ∀ k < min oldSize size, h'.mem (b + k) = h.mem (old + k) := by
  have hin : old ∈ h.live.map Prod.fst := List.mem_map.mpr ⟨_, hold, rfl⟩
  have hsize : size ≠ 0 := by
    rintro rfl
    unfold Malloc.realloc at hok
    rw [if_pos rfl] at hok
    obtain ⟨h₁, -, hrest⟩ := bind_eq_ok.mp hok
    cases hrest
  have hmoved := hs.realloc hin hsize page
  rw [hok] at hmoved
  obtain ⟨r, hr, hb, -⟩ := hs.held hin
  have hroom := hf _ hold r hr hb
  cases hmoved with
  | given sound live arena block follows new kept copied small big served =>
    intro k hk
    dsimp only at hroom
    exact copied r hr hb k (by omega)

/-- The heap is tidy in every state, no call makes an assertion fail or writes past a block, pages go
with the last block of their arena, and what is asked for in vain changes nothing. -/
theorem heap_integrity (hr : ReachHeap Event.Sized d₀ m₀ h) : ∃ as free, Tidy h as free ∧
    (∀ e : Event, e.Sized → step e h = .error .notEnabled ∨ ∃ h', step e h = .ok h' ∧
      ∀ a ∈ as, ∀ p, a.page ≤ p → p < a.page + a.pageCnt →
        (p ∈ h'.pages ↔ ∃ b ∈ a.blocks, b ∈ h'.liveBlocks)) ∧
    (∀ size page h', malloc size page h = .ok (none, h') → h' = h) ∧
    (∀ a b page h', calloc a b page h = .ok (none, h') → h' = h) ∧
    (∀ p size page h', h.Holds p → size ≠ 0 → realloc p size page h = .ok (none, h') → h' = h) ∧
    ∀ old oldSize size page b h', (old, oldSize) ∈ h.live →
      realloc (some old) size page h = .ok (some b, h') →
      ∀ k < min oldSize size, h'.mem (b + k) = h.mem (old + k) := by
  obtain ⟨as, free, hs, hf⟩ := hr.fits
  refine ⟨as, free, hs.tidy hf, fun e hsized => ?_, fun size page h' => hs.malloc_none,
    fun a b page h' => hs.calloc_none, fun p size page h' => hs.realloc_none,
    fun old oldSize size page b h' => hs.realloc_copies hf⟩
  rcases hs.step e with ⟨h', as', free', hok, hnext⟩ | hno | ⟨-, hover⟩
  · exact .inr ⟨h', hok, fun a ha p hlow hhigh => hnext.follows.pages hnext.sound ha hlow hhigh⟩
  · exact .inl hno
  · exact absurd ⟨hsized, hf⟩ hover

/-- Small blocks of one page, a block with a page of its own, and the byte 7, which is copied to
another page when its block is made longer. With that the first page has no block any more. -/
def sampleEvents : List Event :=
  [.malloc 1000 (some 2), .malloc 600 none, .free (some 8204), .malloc 3000 (some 3),
    .calloc 2 300 none, .free (some 9228), .write 8204 5 7, .realloc (some 8204) 2000 (some 4)]

theorem heap_integrity_malloc : ∃ h, ReachHeap Event.Sized 4096 (fun _ => 0) h ∧
    h.live = [(16396, 2000), (12300, 3000)] ∧ h.pages = [4, 3] ∧ h.mem (16396 + 5) = 7 ∧
    ∃ as free, Tidy h as free := by
  have heval : (replay step (fun _ e => decide e.Sized) sampleEvents
      (mallocInit 4096 fun _ => 0)).map (fun h => h.live == [(16396, 2000), (12300, 3000)] &&
        (h.pages == [4, 3] && h.mem (16396 + 5) == 7)) = some true := by
    decide +kernel
  obtain ⟨h, hrun, hleft⟩ := exists_of_replay _ _ _ _ _ heval
  obtain ⟨hlive, hleft⟩ := Bool.and_eq_true_iff.mp hleft
  obtain ⟨hpages, hbyte⟩ := Bool.and_eq_true_iff.mp hleft
  have hreach : ReachHeap Event.Sized 4096 (fun _ => 0) h :=
    ⟨by decide, by decide, hrun.weaken fun _ _ => of_decide_eq_true⟩
  obtain ⟨as, free, htidy, -⟩ := heap_integrity hreach
  exact ⟨h, hreach, beq_iff_eq.mp hlive, beq_iff_eq.mp hpages, beq_iff_eq.mp hbyte, as, free, htidy⟩

end Pintos.Malloc
