import AsoPracticas.Lib.FreeList
import AsoPracticas.Lib.Transition

/-!
# Umalloc — the allocator of user programs

The headers of `umalloc.c` form a circular list through `base`, in the order of their addresses, with a
pointer `freep` that moves along it.  A header is read and written as one cell at its address; addresses
count bytes, and the arithmetic on pointers is that of 32 bits.

* `allocator_invariant` — it holds in every run.
-/

namespace AsoPracticas.Xv6.Umalloc

open Lib (Seg Closed)
open List (cons_append forall_mem_cons map_cons mem_append mem_append_left mem_append_right mem_cons mem_cons_of_mem
  mem_cons_self mem_map mem_map_of_mem pairwise_append pairwise_cons)

/-! ## The code -/

/-- `union header`, of `sizeof(Header)` = 8 bytes. -/
structure Header where
  ptr : Nat
  size : Nat
  deriving DecidableEq, Repr

/-- `p + n` for a pointer to a header. -/
def plus (p : Nat) (n : Nat) : Nat := (p + 8 * n) % 2 ^ 32

/-- The variables of the allocator, with what the kernel has given to the process. -/
structure Heap where
  mem : Nat → Header
  freep : Nat
  /-- the end of the memory of the process -/
  brk : Nat
  /-- where it was before the first `sbrk` -/
  bottom : Nat
  /-- the units obtained from `sbrk` -/
  units : Nat

namespace Heap

def ptr (h : Heap) (a : Nat) : Nat := (h.mem a).ptr

def size (h : Heap) (a : Nat) : Nat := (h.mem a).size

def setPtr (h : Heap) (a p : Nat) : Heap :=
  { h with mem := Function.update h.mem a { h.mem a with ptr := p } }

def setSize (h : Heap) (a : Nat) (n : Nat) : Heap :=
  { h with mem := Function.update h.mem a { h.mem a with size := n } }

/-- Whether the loop of `free` stops at `p`. -/
def place (h : Heap) (bp p : Nat) : Bool :=
  (bp > p ∧ bp < h.ptr p) ∨ (p ≥ h.ptr p ∧ (bp > p ∨ bp < h.ptr p))

/-- `x` is linked to `y`, and joined to it if `y` starts where `x` ends. -/
def link (h : Heap) (x y : Nat) : Heap :=
  if plus x (h.size x) = y then
    let h := h.setSize x ((h.size x + h.size y) % 2 ^ 32)
    h.setPtr x (h.ptr y)
  else h.setPtr x y

def free (fuel : Nat) (h : Heap) (ap : Nat) : Option Heap := do
  let bp := (ap + (2 ^ 32 - 8)) % 2 ^ 32
  let p ← Lib.search h.ptr (h.place bp) fuel h.freep
  let h := h.link bp (h.ptr p)
  let h := h.link p bp
  return { h with freep := p }

end Heap

/-- `sbrk(n)`, where `n` has the bits of the argument: -1, or an address and the end of the memory of the process after
the call. -/
abbrev Call := Heap → Nat → Option (Nat × Nat)

/-- Without memory left `sbrk` does nothing, and otherwise it gives fresh memory above all earlier memory. -/
def Call.FreshAt (sbrk : Call) (h : Heap) : Prop :=
  ∀ n p top, n < 2 ^ 31 → sbrk h n = some (p, top) → h.brk ≤ p ∧ p + n < 2 ^ 32 ∧ top = p + n

/-- What the kernel does for `sbrk(n)`. -/
structure Sbrk where
  call : Call
  fresh : ∀ h, call.FreshAt h

namespace Heap

def morecore (sbrk : Call) (fuel : Nat) (h : Heap) (nu : Nat) : Option (Nat × Heap) :=
  let nu := if nu < 4096 then 4096 else nu
  let n := nu * 8 % 2 ^ 32
  match sbrk h n with
  | none => some (0, h)
  | some (p, top) => do
      let h := { h with brk := top, units := h.units + (top - p) / 8 }
      let h := h.setSize p nu
      let h ← h.free fuel (plus p 1)
      return (h.freep, h)

/-- `n` units of the block at `p`, from its end. -/
def take (h : Heap) (n : Nat) (prevp p : Nat) : Nat × Heap :=
  if h.size p = n then
    let h := h.setPtr prevp (h.ptr p)
    (plus p 1, { h with freep := prevp })
  else
    let h := h.setSize p (h.size p - n)
    let p := plus p (h.size p)
    let h := h.setSize p n
    (plus p 1, { h with freep := prevp })

/-- The loop of `malloc`. -/
def find (h : Heap) (sbrk : Call) (n fuel : Nat) (prevp p : Nat) : Option (Nat × Heap) :=
  match fuel with
  | 0 => none
  | fuel + 1 =>
    if h.size p ≥ n then some (h.take n prevp p)
    else if p = h.freep then do
      let (q, h) ← h.morecore sbrk fuel n
      if q = 0 then some (0, h) else find h sbrk n fuel q (h.ptr q)
    else find h sbrk n fuel p (h.ptr p)

/-- `base` is not yet in use while `freep` is 0. -/
def start (base : Nat) (h : Heap) : Heap :=
  if h.freep = 0 then
    let h := { h.setPtr base base with freep := base }
    h.setSize base 0
  else h

def nunits (nbytes : Nat) : Nat := (nbytes + 8 - 1) % 2 ^ 32 / 8 + 1

def malloc (base : Nat) (sbrk : Call) (fuel : Nat) (h : Heap) (nbytes : Nat) : Option (Nat × Heap) :=
  let h := h.start base
  h.find sbrk (nunits nbytes) fuel h.freep (h.ptr h.freep)

/-! ## Memory -/

section Memory

variable (h : Heap) (a p : Nat) (n : Nat)

@[simp] theorem ptr_setPtr_self : (h.setPtr a p).ptr a = p := by
  simp [ptr, setPtr]

@[simp] theorem size_setSize_self : (h.setSize a n).size a = n := by
  simp [size, setSize]

@[simp] theorem size_setPtr (b : Nat) : (h.setPtr a p).size b = h.size b := by
  by_cases hb : b = a
  · subst hb
    simp [size, setPtr]
  · simp [size, setPtr, hb]

@[simp] theorem ptr_setSize (b : Nat) : (h.setSize a n).ptr b = h.ptr b := by
  by_cases hb : b = a
  · subst hb
    simp [ptr, setSize]
  · simp [ptr, setSize, hb]

theorem mem_setPtr_of_ne {b : Nat} (hb : b ≠ a) : (h.setPtr a p).mem b = h.mem b :=
  Function.update_of_ne hb _ _

theorem mem_setSize_of_ne {b : Nat} (hb : b ≠ a) : (h.setSize a n).mem b = h.mem b :=
  Function.update_of_ne hb _ _

end Memory

theorem plus_eq {p n : Nat} (h : p + 8 * n < 2 ^ 32) : plus p n = p + 8 * n := Nat.mod_eq_of_lt h

/-- The links go along the segments to `base`, and the headers have their sizes. -/
structure Links (h : Heap) (base : Nat) (w : List Seg) : Prop where
  chain : (w.map Seg.start ++ [base]).IsChain fun a b => h.ptr a = b
  len : ∀ c ∈ w, c.len = 8 * h.size c.start

theorem len_congr {h h' : Heap} {x : Seg} (hx : x.len = 8 * h.size x.start) (hmem : h'.mem x.start = h.mem x.start) :
    x.len = 8 * h'.size x.start := by
  rw [hx, size, size, hmem]

theorem Links.congr {h h' : Heap} {base : Nat} {w : List Seg} (hw : Links h base w)
    (hmem : ∀ c ∈ w, h'.mem c.start = h.mem c.start) : Links h' base w where
  chain := by
    refine Lib.chain_congr hw.chain fun a ha => ?_
    obtain ⟨c, hc, rfl⟩ := mem_map.1 ha
    exact congrArg Header.ptr (hmem c hc)
  len := fun c hc => len_congr (hw.len c hc) (hmem c hc)

theorem links_nil (h : Heap) (base : Nat) : Links h base [] where
  chain := List.isChain_singleton base
  len := nofun

theorem links_cons_iff {h : Heap} {base : Nat} {x : Seg} {w : List Seg} :
    Links h base (x :: w) ↔ x.len = 8 * h.size x.start ∧
      (w.map Seg.start ++ [base]).head? = some (h.ptr x.start) ∧ Links h base w := by
  have hhead : ∃ y, (w.map Seg.start ++ [base]).head? = some y := by
    cases w with
    | nil => exact ⟨base, rfl⟩
    | cons c w => exact ⟨c.start, rfl⟩
  obtain ⟨y, hy⟩ := hhead
  constructor
  · rintro ⟨hchain, hlen⟩
    rw [map_cons, cons_append, List.isChain_cons] at hchain
    refine ⟨hlen x mem_cons_self, ?_, hchain.2, fun c hc => hlen c (mem_cons_of_mem x hc)⟩
    rw [hy, hchain.1 y hy]
  · rintro ⟨hx, hptr, hchain, hlen⟩
    refine ⟨?_, forall_mem_cons.2 ⟨hx, hlen⟩⟩
    rw [map_cons, cons_append, List.isChain_cons]
    refine ⟨fun z hz => ?_, hchain⟩
    rw [hptr] at hz
    exact Option.some.inj hz

theorem Links.suffix {h : Heap} {base : Nat} {u w : List Seg} (hw : Links h base (u ++ w)) : Links h base w where
  chain := by
    have hchain := hw.chain
    rw [List.map_append, List.append_assoc] at hchain
    exact hchain.right_of_append
  len := fun c hc => hw.len c (mem_append_right u hc)

theorem Links.replace {h h' : Heap} {base : Nat} {u v w : List Seg} {a a' : Seg}
    (hold : Links h base (u ++ a :: v)) (hnew : Links h' base (a' :: w)) (hstart : a'.start = a.start)
    (hmem : ∀ c ∈ u, h'.mem c.start = h.mem c.start) : Links h' base (u ++ a' :: w) where
  chain := by
    have hchain := hold.chain
    have hchain' := hnew.chain
    rw [List.map_append, List.append_assoc, map_cons, cons_append, List.isChain_split] at hchain ⊢
    rw [hstart]
    refine ⟨Lib.chain_congr hchain.1 fun x hx => ?_, ?_⟩
    · obtain ⟨c, hc, rfl⟩ := mem_map.1 hx
      exact congrArg Header.ptr (hmem c hc)
    · rw [map_cons, cons_append, hstart] at hchain'
      exact hchain'
  len := by
    intro c hc
    rcases mem_append.1 hc with hc | hc
    · exact len_congr (hold.len c (mem_append_left _ hc)) (hmem c hc)
    · exact hnew.len c hc

theorem link_spec {h : Heap} {base y : Nat} {x : Seg} {w : List Seg} (hw : Links h base w)
    (hx : x.len = 8 * h.size x.start) (hy : (w.map Seg.start ++ [base]).head? = some y)
    (hnot : ∀ c ∈ w, c.start ≠ x.start) (htop : x.stop < 2 ^ 32) (hbase : w = [] → x.stop ≠ base)
    (hjoin : ∀ c ∈ w, x.stop = c.start → c.stop < 2 ^ 32) :
    Links (h.link x.start y) base (Seg.glue x w) ∧ ∀ a, a ≠ x.start → (h.link x.start y).mem a = h.mem a := by
  have hplus : plus x.start (h.size x.start) = x.stop := by
    unfold Seg.stop at htop ⊢
    rw [hx] at htop ⊢
    exact plus_eq htop
  by_cases hstop : x.stop = y
  · cases w with
    | nil => exact absurd (hstop.trans (Option.some.inj hy).symm) (hbase rfl)
    | cons c w =>
      obtain rfl : c.start = y := Option.some.inj hy
      obtain ⟨hc, hptr, hlinks⟩ := links_cons_iff.1 hw
      have hend := hjoin c mem_cons_self hstop
      have hsum : (h.size x.start + h.size c.start) % 2 ^ 32 = h.size x.start + h.size c.start := by
        refine Nat.mod_eq_of_lt ?_
        unfold Seg.stop at hend hstop
        omega
      have hlink : h.link x.start c.start =
          (h.setSize x.start (h.size x.start + h.size c.start)).setPtr x.start (h.ptr c.start) := by
        unfold link
        rw [if_pos (hplus.trans hstop), hsum]
        simp only [ptr_setSize]
      have hframe : ∀ a, a ≠ x.start → (h.link x.start c.start).mem a = h.mem a := by
        intro a ha
        rw [hlink, mem_setPtr_of_ne _ _ _ ha, mem_setSize_of_ne _ _ _ ha]
      refine ⟨?_, hframe⟩
      rw [Seg.glue_of_eq w hstop, links_cons_iff]
      refine ⟨?_, ?_, hlinks.congr fun d hd => hframe _ (hnot d (mem_cons_of_mem _ hd))⟩
      · rw [hlink, size_setPtr]
        change x.len + c.len = 8 * (h.setSize x.start _).size x.start
        rw [size_setSize_self, hx, hc, Nat.mul_add]
      · rw [hlink, hptr]
        exact congrArg some (ptr_setPtr_self _ _ _).symm
  · have hlink : h.link x.start y = h.setPtr x.start y := by
      unfold link
      rw [if_neg fun heq => hstop (hplus.symm.trans heq)]
    have hframe : ∀ a, a ≠ x.start → (h.link x.start y).mem a = h.mem a := by
      intro a ha
      rw [hlink, mem_setPtr_of_ne _ _ _ ha]
    have hglue : Seg.glue x w = x :: w := by
      cases w with
      | nil => rfl
      | cons c w => refine Seg.glue_of_ne w fun heq => hstop (heq.trans (Option.some.inj hy))
    refine ⟨?_, hframe⟩
    rw [hglue, links_cons_iff]
    refine ⟨?_, ?_, hw.congr fun d hd => hframe _ (hnot d hd)⟩
    · rw [hlink, size_setPtr, hx]
    · rw [hlink, hy, ptr_setPtr_self]

theorem exists_mem_link (h : Heap) (x y : Nat) : ∃ mem, h.link x y = { h with mem := mem } := by
  unfold link
  split <;> exact ⟨_, rfl⟩

/-- The process keeps the memory that it has. -/
def Grows (h h' : Heap) : Prop := h.brk ≤ h'.brk ∧ h'.bottom = h.bottom

theorem Grows.refl (h : Heap) : h.Grows h := ⟨le_rfl, rfl⟩

theorem Grows.trans {h h' h'' : Heap} (hle : h.Grows h') (hle' : h'.Grows h'') : h.Grows h'' :=
  ⟨hle.1.trans hle'.1, hle'.2.trans hle.2⟩

theorem take_grows (h : Heap) (n prevp p : Nat) : h.Grows (h.take n prevp p).2 := by
  unfold take
  split
  · exact ⟨le_rfl, rfl⟩
  · exact ⟨le_rfl, rfl⟩

end Heap

/-! ## The shape of the heap -/

/-- The header `base`, as a block without units. -/
def baseSeg (base : Nat) : Seg where
  start := base
  len := 0

/-- Free and live blocks.  `L` are the free blocks in the order of the list. -/
structure Shape (base : Nat) (h : Heap) (L live : List Seg) : Prop where
  /-- the list is circular through `base` -/
  links : h.Links base (baseSeg base :: L)
  freep : h.freep ∈ base :: L.map Seg.start
  /-- it is increasing, and no block touches the next one -/
  gaps : (baseSeg base :: L).Pairwise Seg.Before
  live_len : ∀ x ∈ live, x.len = 8 * h.size x.start
  pos : ∀ x ∈ L ++ live, 0 < x.len
  low : ∀ x ∈ L ++ live, h.bottom ≤ x.start
  high : ∀ x ∈ L ++ live, x.stop ≤ h.brk
  live_apart : live.Pairwise Seg.Apart
  free_apart : ∀ x ∈ live, ∀ c ∈ L, x.Apart c
  total : Seg.total (L ++ live) = 8 * h.units
  base_pos : 0 < base
  base_bottom : base + 8 ≤ h.bottom
  bottom_brk : h.bottom ≤ h.brk
  brk_lt : h.brk < 2 ^ 32

namespace Shape

variable {base : Nat} {h : Heap} {L live : List Seg} {b : Seg} {u v : List Seg}

theorem base_brk (hs : Shape base h L live) : base + 8 ≤ h.brk := hs.base_bottom.trans hs.bottom_brk

theorem base_le (hs : Shape base h L live) {x : Seg} (hx : x ∈ L ++ live) : base + 8 ≤ x.start :=
  hs.base_bottom.trans (hs.low x hx)

theorem base_lt (hs : Shape base h L live) {x : Seg} (hx : x ∈ L ++ live) : base < x.start := by
  have hlow := hs.base_le hx
  omega

theorem increasing (hs : Shape base h L live) : (base :: L.map Seg.start).Pairwise (· < ·) := by
  change ((baseSeg base :: L).map Seg.start).Pairwise (· < ·)
  refine List.pairwise_map.2 (hs.gaps.imp fun {c d} hcd => ?_)
  exact (Nat.le_add_right _ _).trans_lt hcd

theorem size_base (hs : Shape base h L live) : h.size base = 0 := by
  have hlen : 0 = 8 * h.size base := hs.links.len (baseSeg base) mem_cons_self
  omega

theorem mem_of_split (hs : Shape base h L live) {a : Seg}
    (hsplit : baseSeg base :: L = u ++ a :: v) : (u = [] ∧ a = baseSeg base ∨ a ∈ L) ∧ ∀ c ∈ v, c ∈ L := by
  cases u with
  | nil =>
    obtain ⟨rfl, rfl⟩ := List.cons.inj hsplit
    exact ⟨.inl ⟨rfl, rfl⟩, fun c hc => hc⟩
  | cons c u =>
    obtain ⟨-, rfl⟩ := List.cons.inj hsplit
    exact ⟨.inr (by simp), fun c hc => by simp [hc]⟩

theorem start_ne_of_split (hs : Shape base h L live) {a x : Seg} (hsplit : baseSeg base :: L = u ++ a :: v)
    (hx : x ∈ live) : x.start ≠ a.start := by
  have hxmem : x ∈ L ++ live := mem_append_right _ hx
  rcases (hs.mem_of_split hsplit).1 with ⟨-, rfl⟩ | ha
  · exact Nat.ne_of_gt (hs.base_lt hxmem)
  · exact (hs.free_apart x hx a ha).start_ne (hs.pos x hxmem) (hs.pos a (mem_append_left _ ha))

theorem ptr_of_split (hs : Shape base h L live) {a : Seg} (hsplit : baseSeg base :: L = u ++ a :: v) :
    (v.map Seg.start ++ [base]).head? = some (h.ptr a.start) :=
  (Heap.links_cons_iff.1 (hsplit ▸ hs.links).suffix).2.1

theorem place_iff (hs : Shape base h L (b :: live)) {a : Seg}
    (hsplit : baseSeg base :: L = u ++ a :: v) :
    h.place b.start a.start = true ↔ a.start ≤ b.start ∧ ∀ c ∈ v, b.start < c.start := by
  have hptr := hs.ptr_of_split hsplit
  have hb := hs.base_lt (x := b) (by simp)
  have hbpos := hs.pos b (by simp)
  obtain ⟨ha, hv⟩ := hs.mem_of_split hsplit
  have hbase : base ≤ a.start := by
    rcases ha with ⟨-, rfl⟩ | ha
    · exact le_rfl
    · exact (hs.base_lt (mem_append_left _ ha)).le
  have hne := hs.start_ne_of_split hsplit mem_cons_self
  have hgaps := hs.gaps
  rw [hsplit] at hgaps
  have hgaps' := (pairwise_append.1 hgaps).2.1
  rw [Heap.place, decide_eq_true_eq]
  cases v with
  | nil =>
    obtain hlast : base = h.ptr a.start := Option.some.inj hptr
    simp only [List.not_mem_nil, false_implies, implies_true, and_true]
    omega
  | cons d v =>
    obtain hnext : d.start = h.ptr a.start := Option.some.inj hptr
    have had := (pairwise_cons.1 hgaps').1 d mem_cons_self
    have hdv := (pairwise_cons.1 (pairwise_cons.1 hgaps').2).1
    simp only [Seg.Before, Seg.stop] at had hdv
    constructor
    · intro hplace
      have hlt : a.start < b.start ∧ b.start < d.start := by omega
      refine ⟨hlt.1.le, forall_mem_cons.2 ⟨hlt.2, fun c hc => ?_⟩⟩
      have hdc := hdv c hc
      omega
    · rintro ⟨hab, hall⟩
      have hbd := hall d mem_cons_self
      omega

theorem search_spec (hs : Shape base h L (b :: live)) {fuel : Nat} (hfuel : L.length < fuel) :
    ∃ u a v, baseSeg base :: L = u ++ a :: v ∧ a.start ≤ b.start ∧ (∀ c ∈ v, b.start < c.start) ∧
      Lib.search h.ptr (h.place b.start) fuel h.freep = some a.start := by
  have hclosed : Closed h.ptr base (L.map Seg.start) := hs.links.chain
  have hb := hs.base_lt (x := b) (by simp)
  obtain ⟨u, a, v, hsplit, ha, hv⟩ := Seg.exists_last_before b hs.gaps hb.le
  have hmem : a.start ∈ base :: L.map Seg.start := by
    have hmem' : a ∈ baseSeg base :: L := by
      rw [hsplit]
      simp
    exact mem_map_of_mem (f := Seg.start) hmem'
  have hplace : ∃ q ∈ base :: L.map Seg.start, h.place b.start q = true :=
    ⟨a.start, hmem, (hs.place_iff hsplit).2 ⟨ha, hv⟩⟩
  obtain ⟨q, hq, hsearch, hstop⟩ := hclosed.search (n := fuel) hs.freep hplace (by rwa [List.length_map])
  obtain ⟨a', ha', rfl⟩ := mem_map.1 (show q ∈ (baseSeg base :: L).map Seg.start from hq)
  obtain ⟨u', v', hsplit'⟩ := List.append_of_mem ha'
  obtain ⟨hle, hall⟩ := (hs.place_iff hsplit').1 hstop
  exact ⟨u', a', v', hsplit', hle, hall, hsearch⟩

theorem len_ge (hs : Shape base h L live) {x : Seg} (hx : x ∈ L ++ live) : 8 ≤ x.len := by
  have hpos := hs.pos x hx
  have hlen : x.len = 8 * h.size x.start := by
    rcases mem_append.1 hx with hx | hx
    · exact hs.links.len x (mem_cons_of_mem _ hx)
    · exact hs.live_len x hx
  omega

theorem header_eq (hs : Shape base h L live) {x : Seg} (hx : x ∈ L ++ live) :
    (plus x.start 1 + (2 ^ 32 - 8)) % 2 ^ 32 = x.start := by
  have hlen := hs.len_ge hx
  have hhigh := hs.high x hx
  have hbrk := hs.brk_lt
  unfold Seg.stop at hhigh
  rw [Heap.plus_eq (by omega)]
  omega

theorem insert_base (hs : Shape base h L (b :: live)) :
    Seg.insert b (baseSeg base :: L) = baseSeg base :: Seg.insert b L := by
  have hb : base < b.start := hs.base_lt (by simp)
  have hlow : ∀ c ∈ Seg.insert b L, base < c.start :=
    Seg.forall_insert (fun _ _ _ hs _ => hs) hb fun c hc => hs.base_lt (by simp [hc])
  rw [Seg.insert_of_le L hb.le]
  cases hL : Seg.insert b L with
  | nil => rfl
  | cons c w =>
    refine Seg.glue_of_ne w (Nat.ne_of_lt (hlow c ?_))
    rw [hL]
    exact mem_cons_self

theorem free_links (hs : Shape base h L (b :: live)) {a : Seg}
    (hsplit : baseSeg base :: L = u ++ a :: v) (hab : a.start ≤ b.start) (hbv : ∀ c ∈ v, b.start < c.start) :
    ((h.link b.start (h.ptr a.start)).link a.start b.start).Links base (baseSeg base :: Seg.insert b L) ∧
      ∀ x, x ≠ b.start → x ≠ a.start → ((h.link b.start (h.ptr a.start)).link a.start b.start).mem x = h.mem x := by
  have hbmem : b ∈ L ++ b :: live := by simp
  have hbpos := hs.pos b hbmem
  have hblow := hs.base_le hbmem
  have hbrk := hs.brk_lt
  have hbhigh := hs.high b hbmem
  obtain ⟨ha, hv⟩ := hs.mem_of_split hsplit
  have hlinks := hs.links
  have hgaps := hs.gaps
  rw [hsplit] at hlinks hgaps
  obtain ⟨halen, haptr, hvlinks⟩ := Heap.links_cons_iff.1 hlinks.suffix
  have hane := (hs.start_ne_of_split hsplit mem_cons_self).symm
  have halt : a.start < b.start := Nat.lt_of_le_of_ne hab hane
  have hastop : a.stop ≤ h.brk := by
    rcases ha with ⟨-, rfl⟩ | ha
    · exact (Nat.le_add_right base 8).trans hs.base_brk
    · exact hs.high a (by simp [ha])
  have hvhigh : ∀ c ∈ v, c.stop ≤ h.brk := fun c hc => hs.high c (by simp [hv c hc])
  -- first the block is linked to what follows it
  obtain ⟨hlinks1, hframe1⟩ := Heap.link_spec hvlinks (hs.live_len b mem_cons_self) haptr
    (fun c hc => Nat.ne_of_gt (hbv c hc)) (hbhigh.trans_lt hbrk)
    (fun _ => by unfold Seg.stop; omega) fun c hc _ => (hvhigh c hc).trans_lt hbrk
  -- then the node before it to the block
  obtain ⟨b', w, hglue, hb', -⟩ := Seg.glue_eq_cons b v
  have hafter : ∀ c ∈ Seg.glue b v, a.start < c.start :=
    Seg.forall_glue (fun _ _ _ hb _ => hb) halt fun c hc => halt.trans (hbv c hc)
  have hjoinhigh : ∀ c ∈ Seg.glue b v, c.stop ≤ h.brk := by
    refine Seg.forall_glue (fun t _ hstop _ ht => ?_) hbhigh hvhigh
    simp only [Seg.join, Seg.stop] at hstop ht ⊢
    omega
  have hhead : ((Seg.glue b v).map Seg.start ++ [base]).head? = some b.start := by
    rw [hglue, ← hb']
    rfl
  obtain ⟨hlinks2, hframe2⟩ := Heap.link_spec hlinks1 (Heap.len_congr halen (hframe1 _ hane)) hhead
    (fun c hc => Nat.ne_of_gt (hafter c hc)) (hastop.trans_lt hbrk)
    (fun hnil => absurd hnil (by rw [hglue]; exact List.cons_ne_nil _ _))
    fun c hc _ => (hjoinhigh c hc).trans_lt hbrk
  have hframe := fun x (hxb : x ≠ b.start) hxa => (hframe2 x hxa).trans (hframe1 x hxb)
  refine ⟨?_, hframe⟩
  rw [← hs.insert_base, hsplit, Seg.insert_eq hgaps hab hbv]
  obtain ⟨a', w', hglue', ha', -⟩ := Seg.glue_eq_cons a (Seg.glue b v)
  rw [hglue'] at hlinks2 ⊢
  refine hlinks.replace hlinks2 ha' fun c hc => ?_
  have hca : c.start < a.start := by
    have hbefore := (pairwise_append.1 hgaps).2.2 c hc a mem_cons_self
    simp only [Seg.Before, Seg.stop] at hbefore
    omega
  exact hframe c.start (Nat.ne_of_lt (hca.trans halt)) (Nat.ne_of_lt hca)

theorem inserted (hs : Shape base h L (b :: live)) {mem : Nat → Header} {p : Nat}
    (hlinks : Heap.Links { h with mem := mem, freep := p } base (baseSeg base :: Seg.insert b L))
    (hmem : ∀ x ∈ live, mem x.start = h.mem x.start) (hfreep : p ∈ base :: (Seg.insert b L).map Seg.start) :
    Shape base { h with mem := mem, freep := p } (Seg.insert b L) live := by
  have hbmem : b ∈ L ++ b :: live := by simp
  have hLmem : ∀ c ∈ L, c ∈ L ++ b :: live := fun c hc => mem_append_left _ hc
  have hxmem : ∀ x ∈ live, x ∈ L ++ b :: live := fun x hx => by simp [hx]
  obtain ⟨hbapart, hlive⟩ := pairwise_cons.1 hs.live_apart
  -- a property of all blocks that a join keeps is one of all blocks afterwards
  have hall : ∀ P : Seg → Prop, (∀ s t : Seg, s.stop = t.start → P s → P t → P (s.join t)) →
      (∀ x ∈ L ++ b :: live, P x) → ∀ x ∈ Seg.insert b L ++ live, P x := by
    intro P hjoin hP x hx
    rcases mem_append.1 hx with hx | hx
    · exact Seg.forall_insert hjoin (hP b hbmem) (fun c hc => hP c (hLmem c hc)) x hx
    · exact hP x (hxmem x hx)
  refine
    { hs with
      links := hlinks
      freep := hfreep
      gaps := ?_
      live_len := ?_
      pos := hall _ (fun _ _ _ hs _ => Nat.add_pos_left hs _) hs.pos
      low := hall _ (fun _ _ _ hs _ => hs) hs.low
      high := ?_
      live_apart := hlive
      free_apart := ?_
      total := ?_ }
  · refine pairwise_cons.2 ⟨?_, ?_⟩
    · exact Seg.forall_insert (P := fun c => base < c.start) (fun _ _ _ hs _ => hs) (hs.base_lt hbmem)
        fun c hc => hs.base_lt (hLmem c hc)
    · exact Seg.pairwise_insert (hs.pos b hbmem) (pairwise_cons.1 hs.gaps).2
        (fun c hc => hs.pos c (hLmem c hc)) (hs.free_apart b mem_cons_self)
  · exact fun x hx => Heap.len_congr (hs.live_len x (mem_cons_of_mem b hx)) (hmem x hx)
  · refine hall _ (fun s t hstop _ ht => ?_) hs.high
    simp only [Seg.join, Seg.stop] at hstop ht ⊢
    omega
  · intro x hx
    have hxpos := hs.pos x (hxmem x hx)
    exact Seg.forall_insert (fun _ _ hstop hs ht => hs.join hxpos hstop ht) (hbapart x hx).symm
      (hs.free_apart x (mem_cons_of_mem b hx))
  · rw [← hs.total, Seg.total_append, Seg.total_insert, Seg.total_append, Seg.total_cons]
    ring

theorem free_spec (hs : Shape base h L (b :: live)) {fuel : Nat} (hfuel : L.length < fuel) :
    ∃ h', h.free fuel (plus b.start 1) = some h' ∧ Shape base h' (Seg.insert b L) live ∧ h.Grows h' := by
  obtain ⟨u, a, v, hsplit, hab, hbv, hsearch⟩ := hs.search_spec hfuel
  obtain ⟨hlinks, hframe⟩ := hs.free_links hsplit hab hbv
  obtain ⟨mem', hlink'⟩ := Heap.exists_mem_link h b.start (h.ptr a.start)
  obtain ⟨mem, hlink⟩ := Heap.exists_mem_link { h with mem := mem' } a.start b.start
  rw [hlink', hlink] at hlinks hframe
  refine ⟨{ h with mem := mem, freep := a.start }, ?_, ?_, le_rfl, rfl⟩
  · simp only [Heap.free, hs.header_eq (x := b) (by simp), hsearch, Option.bind_eq_bind, Option.bind_some,
      hlink', hlink]
    rfl
  · refine hs.inserted ⟨hlinks.chain, hlinks.len⟩ ?_ ?_
    · intro x hx
      have hxb := (pairwise_cons.1 hs.live_apart).1 x hx
      exact hframe x.start (hxb.symm.start_ne (hs.pos x (by simp [hx])) (hs.pos b (by simp)))
        (hs.start_ne_of_split hsplit (mem_cons_of_mem b hx))
    · -- the node found is still in the list
      have hgaps := hs.gaps
      rw [hsplit] at hgaps
      obtain ⟨a', w', hglue', ha', -⟩ := Seg.glue_eq_cons a (Seg.glue b v)
      have hmem : a' ∈ baseSeg base :: Seg.insert b L := by
        rw [← hs.insert_base, hsplit, Seg.insert_eq hgaps hab hbv, hglue']
        simp
      rw [← ha']
      exact mem_map_of_mem (f := Seg.start) hmem

theorem grown (hs : Shape base h L live) {p nu : Nat} (hp : h.brk ≤ p) (htop : p + 8 * nu < 2 ^ 32) (hnu : 0 < nu) :
    Shape base ({ h with brk := p + 8 * nu, units := h.units + nu }.setSize p nu) L
      ({ start := p, len := 8 * nu } :: live) := by
  have hstop : ∀ x ∈ L ++ live, x.start ≠ p := by
    intro x hx
    have hhigh := hs.high x hx
    have hpos := hs.pos x hx
    unfold Seg.stop at hhigh
    omega
  have hbrk := hs.base_brk
  have hall : ∀ P : Seg → Prop, P { start := p, len := 8 * nu } → (∀ x ∈ L ++ live, P x) →
      ∀ x ∈ L ++ { start := p, len := 8 * nu } :: live, P x := by
    intro P hnew hP
    exact fun x hx => forall_mem_cons.2 ⟨hnew, hP⟩ x (List.perm_middle.mem_iff.1 hx)
  refine
    { hs with
      links := ?_
      live_len := ?_
      pos := ?_
      low := ?_
      high := ?_
      live_apart := ?_
      free_apart := ?_
      total := ?_
      bottom_brk := ?_
      brk_lt := htop }
  · refine hs.links.congr (forall_mem_cons.2 ⟨?_, fun c hc => ?_⟩)
    · exact Heap.mem_setSize_of_ne _ _ _ (by unfold baseSeg; simp only; omega)
    · exact Heap.mem_setSize_of_ne _ _ _ (hstop c (mem_append_left _ hc))
  · refine forall_mem_cons.2 ⟨by rw [Heap.size_setSize_self], fun x hx => ?_⟩
    exact Heap.len_congr (hs.live_len x hx) (Heap.mem_setSize_of_ne _ _ _ (hstop x (mem_append_right _ hx)))
  · exact hall _ (Nat.mul_pos (by decide) hnu) hs.pos
  · exact hall _ (hs.bottom_brk.trans hp) hs.low
  · exact hall _ le_rfl fun x hx => (hs.high x hx).trans (hp.trans (Nat.le_add_right _ _))
  · exact pairwise_cons.2 ⟨fun x hx => .inr ((hs.high x (by simp [hx])).trans hp), hs.live_apart⟩
  · refine forall_mem_cons.2 ⟨fun c hc => .inr ((hs.high c (by simp [hc])).trans hp), hs.free_apart⟩
  · have htotal := hs.total
    rw [Seg.total_append] at htotal ⊢
    rw [Seg.total_cons]
    change _ = 8 * (h.units + nu)
    simp only
    omega
  · exact hs.bottom_brk.trans (hp.trans (Nat.le_add_right _ _))

theorem freep_pos (hs : Shape base h L live) : 0 < h.freep := by
  rcases mem_cons.1 hs.freep with hbase | hmem
  · rw [hbase]
    exact hs.base_pos
  · obtain ⟨c, hc, hstart⟩ := mem_map.1 hmem
    rw [← hstart]
    exact Nat.zero_lt_of_lt (hs.base_lt (mem_append_left _ hc))

theorem morecore_spec (hs : Shape base h L live) {sbrk : Call} (hfresh : sbrk.FreshAt h) {nu fuel : Nat} (hnu : 0 < nu)
    (hmax : 8 * nu < 2 ^ 31) (hfuel : L.length < fuel) :
    h.morecore sbrk fuel nu = some (0, h) ∨
      ∃ h' L', h.morecore sbrk fuel nu = some (h'.freep, h') ∧ Shape base h' L' live ∧
        (∃ c ∈ L', 8 * nu ≤ c.len) ∧ L'.length ≤ L.length + 1 ∧ h.Grows h' := by
  obtain ⟨m, hm, hle, hsmall⟩ : ∃ m, (if nu < 4096 then 4096 else nu) = m ∧ nu ≤ m ∧ 8 * m < 2 ^ 31 := by
    refine ⟨_, rfl, ?_⟩
    split
    · omega
    · exact ⟨le_rfl, hmax⟩
  have hbytes : m * 8 % 2 ^ 32 = 8 * m := by omega
  simp only [Heap.morecore, hm, hbytes]
  cases hcall : sbrk h (8 * m) with
  | none => exact .inl rfl
  | some r =>
    obtain ⟨p, top⟩ := r
    obtain ⟨hp, htop, rfl⟩ := hfresh _ p top hsmall hcall
    have hgrown := hs.grown hp htop (hnu.trans_le hle)
    obtain ⟨h', hfree, hs', hgrows⟩ := hgrown.free_spec hfuel
    have hfirst : h.Grows ({ h with brk := p + 8 * m, units := h.units + m }.setSize p m) :=
      ⟨hp.trans (Nat.le_add_right _ _), rfl⟩
    refine .inr ⟨h', _, ?_, hs', ?_, Seg.length_insert_le _ _, hfirst.trans hgrows⟩
    · simp only [Nat.add_sub_cancel_left, Nat.mul_div_cancel_left m (by decide : 0 < 8)]
      simp only [hfree]
      rfl
    · obtain ⟨c, hc, hlen⟩ := Seg.exists_le_insert { start := p, len := 8 * m } L
      exact ⟨c, hc, (Nat.mul_le_mul_left 8 hle).trans hlen⟩

/-- What is live after `b` has been taken from the free block `c`, of which `rest` is left. -/
theorem taken {l v rest : List Seg} {c : Seg} (hs : Shape base h (l ++ c :: v) live) {mem : Nat → Header} {p : Nat}
    (hlinks : Heap.Links { h with mem := mem, freep := p } base (baseSeg base :: (l ++ (rest ++ v))))
    (hmem : ∀ x ∈ live, mem x.start = h.mem x.start) (hfreep : p ∈ base :: (l ++ (rest ++ v)).map Seg.start)
    (hb : b.Within c) (hblen : b.len = 8 * (mem b.start).size) (hbpos : 0 < b.len)
    (hrest : ∀ r ∈ rest, r.Within c ∧ 0 < r.len ∧ r.stop ≤ b.start) (hone : rest.Pairwise Seg.Before)
    (htotal : Seg.total rest + b.len = c.len) :
    Shape base { h with mem := mem, freep := p } (l ++ (rest ++ v)) (b :: live) := by
  have hc : c ∈ l ++ c :: v ++ live := by simp
  -- every block is a part of one that there was before
  have hall : ∀ P : Seg → Prop, (∀ s t : Seg, s.Within t → 0 < s.len → P t → P s) →
      (∀ x ∈ l ++ c :: v ++ live, P x) → ∀ x ∈ l ++ (rest ++ v) ++ b :: live, P x := by
    intro P hwithin hP x hx
    simp only [mem_append, mem_cons] at hx
    rcases hx with (hx | hx | hx) | rfl | hx
    · exact hP x (by simp [hx])
    · exact hwithin x c (hrest x hx).1 (hrest x hx).2.1 (hP c hc)
    · exact hP x (by simp [hx])
    · exact hwithin x c hb hbpos (hP c hc)
    · exact hP x (by simp [hx])
  have hgaps := hs.gaps
  rw [← cons_append, pairwise_append] at hgaps
  obtain ⟨hbefore, hafter, hacross⟩ := hgaps
  obtain ⟨hcv, hv⟩ := pairwise_cons.1 hafter
  have hcl : ∀ x ∈ l, x.Before c := fun x hx => hacross x (mem_cons_of_mem _ hx) c mem_cons_self
  refine
    { hs with
      links := hlinks
      freep := hfreep
      gaps := ?_
      live_len := ?_
      pos := hall _ (fun _ _ _ hpos _ => hpos) hs.pos
      low := hall _ (fun _ _ hwithin _ ht => ht.trans hwithin.1) hs.low
      high := hall _ (fun _ _ hwithin _ ht => hwithin.2.trans ht) hs.high
      live_apart := ?_
      free_apart := ?_
      total := ?_ }
  · rw [← cons_append, pairwise_append]
    refine ⟨hbefore, pairwise_append.2 ⟨hone, hv, fun r hr y hy => ?_⟩, fun x hx y hy => ?_⟩
    · exact (hcv y hy).within (hrest r hr).1 (Seg.within_refl y)
    · rcases mem_append.1 hy with hy | hy
      · exact (hacross x hx c mem_cons_self).within (Seg.within_refl x) (hrest y hy).1
      · exact hacross x hx y (mem_cons_of_mem c hy)
  · exact forall_mem_cons.2 ⟨hblen, fun x hx => Heap.len_congr (hs.live_len x hx) (hmem x hx)⟩
  · refine pairwise_cons.2 ⟨fun x hx => ?_, hs.live_apart⟩
    exact ((hs.free_apart x hx c (by simp)).within hb).symm
  · refine forall_mem_cons.2 ⟨fun y hy => ?_, fun x hx y hy => ?_⟩
    · simp only [mem_append] at hy
      rcases hy with hy | hy | hy
      · exact .inr ((hcl y hy).le.trans hb.1)
      · exact .inr (hrest y hy).2.2
      · exact .inl (hb.2.trans (hcv y hy).le)
    · simp only [mem_append] at hy
      rcases hy with hy | hy | hy
      · exact hs.free_apart x hx y (by simp [hy])
      · exact (hs.free_apart x hx c (by simp)).within (hrest y hy).1
      · exact hs.free_apart x hx y (by simp [hy])
  · have hold := hs.total
    simp only [Seg.total_append, Seg.total_cons] at hold ⊢
    omega

theorem split_free {a c : Seg} (hsplit : baseSeg base :: L = u ++ a :: c :: v) :
    ∃ l, baseSeg base :: l = u ++ [a] ∧ L = l ++ c :: v := by
  cases u with
  | nil =>
    obtain ⟨rfl, rfl⟩ := List.cons.inj hsplit
    exact ⟨[], rfl, rfl⟩
  | cons d u =>
    obtain ⟨rfl, rfl⟩ := List.cons.inj hsplit
    exact ⟨u ++ [a], rfl, by simp⟩

theorem take_all (hs : Shape base h L live) {a c : Seg}
    (hsplit : baseSeg base :: L = u ++ a :: c :: v) :
    ∃ L', Shape base { h.setPtr a.start (h.ptr c.start) with freep := a.start } L' (c :: live) := by
  have hlinks := hs.links
  have hgaps := hs.gaps
  rw [hsplit] at hlinks hgaps
  obtain ⟨halen, -, hclinks⟩ := Heap.links_cons_iff.1 hlinks.suffix
  obtain ⟨hclen, hcptr, hvlinks⟩ := Heap.links_cons_iff.1 hclinks
  obtain ⟨-, hav, hacross⟩ := pairwise_append.1 hgaps
  have hne := fun x => hs.start_ne_of_split (x := x) hsplit
  obtain ⟨l, hl, rfl⟩ := split_free hsplit
  have hrename : baseSeg base :: (l ++ ([] ++ v)) = u ++ a :: v := by
    rw [List.nil_append, ← cons_append, hl, List.append_assoc]
    rfl
  refine ⟨l ++ ([] ++ v), hs.taken ?_ ?_ ?_ (Seg.within_refl c) ?_ (hs.pos c (by simp)) nofun
    List.Pairwise.nil (Nat.zero_add _)⟩
  · rw [hrename]
    refine hlinks.replace (Heap.links_cons_iff.2 ⟨?_, ?_, hvlinks.congr fun d hd => ?_⟩) rfl fun d hd => ?_
    · exact halen.trans (congrArg (8 * ·) (Heap.size_setPtr _ _ _ _).symm)
    · exact hcptr.trans (congrArg some (Heap.ptr_setPtr_self _ _ _).symm)
    · have hbefore := (pairwise_cons.1 hav).1 d (mem_cons_of_mem c hd)
      simp only [Seg.Before, Seg.stop] at hbefore
      exact Heap.mem_setPtr_of_ne _ _ _ (by omega)
    · have hbefore := hacross d hd a mem_cons_self
      simp only [Seg.Before, Seg.stop] at hbefore
      exact Heap.mem_setPtr_of_ne _ _ _ (by omega)
  · intro x hx
    exact Heap.mem_setPtr_of_ne _ _ _ (hne x hx)
  · have hmem : a ∈ baseSeg base :: (l ++ ([] ++ v)) := by
      rw [hrename]
      simp
    exact mem_map_of_mem (f := Seg.start) hmem
  · exact hclen.trans (congrArg (8 * ·) (Heap.size_setPtr _ _ _ _).symm)

theorem take_end (hs : Shape base h L live) {a c : Seg} {n m : Nat}
    (hsplit : baseSeg base :: L = u ++ a :: c :: v) (hn : 0 < n) (hm : 0 < m)
    (hsize : h.size c.start = m + n) :
    ∃ L', Shape base { (h.setSize c.start m).setSize (c.start + 8 * m) n with freep := a.start } L'
      ({ start := c.start + 8 * m, len := 8 * n } :: live) := by
  have hlinks := hs.links
  have hgaps := hs.gaps
  rw [hsplit, List.append_cons] at hlinks hgaps
  obtain ⟨hclen, hcptr, hvlinks⟩ := Heap.links_cons_iff.1 hlinks.suffix
  obtain ⟨-, hcv, hacross⟩ := pairwise_append.1 hgaps
  have hframe : ∀ x, x ≠ c.start → x ≠ c.start + 8 * m →
      ((h.setSize c.start m).setSize (c.start + 8 * m) n).mem x = h.mem x := by
    intro x hxc hxq
    rw [Heap.mem_setSize_of_ne _ _ _ hxq, Heap.mem_setSize_of_ne _ _ _ hxc]
  have hrest : c.start ≠ c.start + 8 * m := by omega
  obtain ⟨l, hl, rfl⟩ := split_free hsplit
  have hrename : ∀ r : Seg, baseSeg base :: (l ++ ([r] ++ v)) = (u ++ [a]) ++ r :: v := by
    intro r
    rw [← cons_append, hl]
    rfl
  refine ⟨l ++ ([{ start := c.start, len := 8 * m }] ++ v), hs.taken ?_ ?_ ?_ ?_ ?_ ?_ ?_
    (List.pairwise_singleton _ _) ?_⟩
  · rw [hrename]
    refine hlinks.replace (Heap.links_cons_iff.2 ⟨?_, ?_, hvlinks.congr fun d hd => ?_⟩) rfl fun d hd => ?_
    · change 8 * m = 8 * ((h.setSize c.start m).setSize (c.start + 8 * m) n).size c.start
      rw [Heap.size, Heap.mem_setSize_of_ne _ _ _ hrest]
      exact congrArg (8 * ·) (Heap.size_setSize_self _ _ _).symm
    · rw [hcptr]
      refine congrArg some (Eq.symm ?_)
      exact (Heap.ptr_setSize _ _ _ _).trans (Heap.ptr_setSize _ _ _ _)
    · have hbefore := (pairwise_cons.1 hcv).1 d hd
      simp only [Seg.Before, Seg.stop] at hbefore
      exact hframe _ (by omega) (by omega)
    · have hbefore := hacross d hd c mem_cons_self
      simp only [Seg.Before, Seg.stop] at hbefore
      exact hframe _ (by omega) (by omega)
  · intro x hx
    have hapart := hs.free_apart x hx c (by simp)
    have hxpos := hs.pos x (by simp [hx])
    simp only [Seg.Apart, Seg.stop] at hapart
    exact hframe _ (by omega) (by omega)
  · have hmem : a ∈ baseSeg base :: (l ++ ([{ start := c.start, len := 8 * m }] ++ v)) := by
      rw [hrename]
      simp
    exact mem_map_of_mem (f := Seg.start) hmem
  · simp only [Seg.Within, Seg.stop]
    omega
  · exact congrArg (8 * ·) (Heap.size_setSize_self _ _ _).symm
  · exact Nat.mul_pos (by decide) hn
  · intro r hr
    rw [List.mem_singleton.1 hr]
    simp only [Seg.Within, Seg.stop]
    omega
  · change 8 * m + 0 + 8 * n = c.len
    omega

theorem take_spec (hs : Shape base h L live) {a c : Seg} {n : Nat}
    (hsplit : baseSeg base :: L = u ++ a :: c :: v) (hn : 0 < n) (hfit : n ≤ h.size c.start) :
    ∃ b L' h', h.take n a.start c.start = (plus b.start 1, h') ∧ b.len = 8 * n ∧ Shape base h' L' (b :: live) := by
  have hlinks := hs.links
  rw [hsplit, List.append_cons] at hlinks
  have hclen := (Heap.links_cons_iff.1 hlinks.suffix).1
  by_cases hexact : h.size c.start = n
  · obtain ⟨L', hs'⟩ := hs.take_all hsplit
    refine ⟨c, L', _, ?_, by rw [hclen, hexact], hs'⟩
    unfold Heap.take
    rw [if_pos hexact]
  · obtain ⟨m, hm⟩ := Nat.exists_eq_add_of_le' hfit
    obtain ⟨L', hs'⟩ := hs.take_end hsplit hn (by omega) hm
    refine ⟨_, L', _, ?_, rfl, hs'⟩
    have hcmem : c ∈ L := (hs.mem_of_split hsplit).2 c mem_cons_self
    have hhigh := hs.high c (by simp [hcmem])
    have hbrk := hs.brk_lt
    unfold Seg.stop at hhigh
    have hplus : plus c.start m = c.start + 8 * m := Heap.plus_eq (by omega)
    unfold Heap.take
    rw [if_neg hexact]
    simp only [hm, Nat.add_sub_cancel, Heap.size_setSize_self, hplus]

theorem find_round (sbrk : Call) {n fuel prevp : Nat} {w : List Nat}
    (hchain : (prevp :: (w ++ [h.freep])).IsChain fun x y => h.ptr x = y) (hnot : h.freep ∉ w)
    (hfuel : w.length < fuel) :
    (∃ a ∈ prevp :: w, n ≤ h.size (h.ptr a) ∧ h.find sbrk n fuel prevp (h.ptr prevp) = some (h.take n a (h.ptr a))) ∨
    ((∀ p ∈ w ++ [h.freep], h.size p < n) ∧ ∃ m prev, fuel = m + w.length + 1 ∧
      h.find sbrk n fuel prevp (h.ptr prevp) = h.find sbrk n (m + 1) prev h.freep) := by
  obtain ⟨k, rfl⟩ := Nat.exists_eq_add_of_lt hfuel
  induction w generalizing prevp k with
  | nil =>
    obtain ⟨hptr, -⟩ := List.isChain_cons_cons.1 hchain
    by_cases hfit : n ≤ h.size (h.ptr prevp)
    · refine .inl ⟨prevp, mem_cons_self, hfit, ?_⟩
      rw [Heap.find, if_pos hfit]
    · refine .inr ⟨?_, k, prevp, by simp, ?_⟩
      · intro p hp
        rw [List.mem_singleton.1 hp, ← hptr]
        exact Nat.lt_of_not_le hfit
      · rw [hptr]
        simp
  | cons p w ih =>
    obtain ⟨hptr, hrest⟩ := List.isChain_cons_cons.1 hchain
    by_cases hfit : n ≤ h.size p
    · refine .inl ⟨prevp, mem_cons_self, hptr ▸ hfit, ?_⟩
      rw [Heap.find, hptr, if_pos hfit]
    · have hp : p ≠ h.freep := fun heq => hnot (heq ▸ mem_cons_self)
      have hstep : h.find sbrk n ((p :: w).length + k + 1) prevp (h.ptr prevp) =
          h.find sbrk n (w.length + k + 1) p (h.ptr p) := by
        rw [Heap.find, hptr, if_neg hfit, if_neg hp, List.length_cons, Nat.add_right_comm]
      rw [hstep]
      rcases ih hrest (fun hmem => hnot (mem_cons_of_mem p hmem)) k (by omega) with
        ⟨a, ha, hfound⟩ | ⟨hnone, m, prev, hm, hfind⟩
      · exact .inl ⟨a, mem_cons_of_mem _ ha, hfound⟩
      · refine .inr ⟨forall_mem_cons.2 ⟨Nat.lt_of_not_le hfit, hnone⟩, m, prev, ?_, hfind⟩
        omega

theorem find_spec (hs : Shape base h L live) (sbrk : Call) {n fuel : Nat} (hn : 0 < n) (hfuel : L.length < fuel) :
    (∃ b L' h', h.find sbrk n fuel h.freep (h.ptr h.freep) = some (plus b.start 1, h') ∧ b.len = 8 * n ∧
      Shape base h' L' (b :: live) ∧ h.Grows h') ∨
    ((∀ c ∈ L, h.size c.start < n) ∧ ∃ m prev, fuel = m + L.length + 1 ∧
      h.find sbrk n fuel h.freep (h.ptr h.freep) = h.find sbrk n (m + 1) prev h.freep) := by
  have hclosed : Closed h.ptr base (L.map Seg.start) := hs.links.chain
  obtain ⟨u, v, hsplit⟩ := List.append_of_mem hs.freep
  have hperm : (h.freep :: (v ++ u)).Perm (base :: L.map Seg.start) := by
    rw [hsplit]
    exact (List.perm_append_comm : (u ++ h.freep :: v).Perm _).symm
  have hlen : (v ++ u).length = L.length := by
    have hlength := hperm.length_eq
    simpa using hlength
  have hnodup : (base :: L.map Seg.start).Nodup := hs.increasing.imp fun hlt => Nat.ne_of_lt hlt
  have hnot : h.freep ∉ v ++ u := (List.nodup_cons.1 (hperm.nodup_iff.2 hnodup)).1
  rcases find_round sbrk (hclosed.rotate hsplit) hnot (by omega : _ < fuel) with
    ⟨q, hq, hfit, hfind⟩ | ⟨hnone, m, prev, hm, hfind⟩
  · obtain ⟨a, ha, rfl⟩ := mem_map.1 (show q ∈ (baseSeg base :: L).map Seg.start from hperm.mem_iff.1 hq)
    obtain ⟨u', v', hsplit'⟩ := List.append_of_mem ha
    have hptr := hs.ptr_of_split hsplit'
    cases v' with
    | nil =>
      -- after the last block comes `base`, which is too small
      obtain hbase : base = h.ptr a.start := Option.some.inj hptr
      rw [← hbase, hs.size_base] at hfit
      exact absurd hfit (Nat.not_le.2 hn)
    | cons c v' =>
      obtain hc : c.start = h.ptr a.start := Option.some.inj hptr
      rw [← hc] at hfit hfind
      obtain ⟨b, L', h', htake, hlen', hs'⟩ := hs.take_spec hsplit' hn hfit
      have hgrows := h.take_grows n a.start c.start
      rw [htake] at hgrows
      exact .inl ⟨b, L', h', hfind.trans (congrArg some htake), hlen', hs', hgrows⟩
  · refine .inr ⟨fun c hc => hnone c.start ?_, m, prev, hlen ▸ hm, hfind⟩
    have hmem := hperm.mem_iff.2 (mem_cons_of_mem base (mem_map_of_mem (f := Seg.start) hc))
    rcases mem_cons.1 hmem with heq | hmem
    · rw [heq]
      simp
    · exact mem_append_left _ hmem

/-- What `malloc` can do: nothing, or a new live block of the units asked for. -/
def Mallocs (base : Nat) (n : Nat) (h : Heap) (live : List Seg) (r : Option (Nat × Heap)) : Prop :=
  (∃ h' L', r = some (0, h') ∧ Shape base h' L' live ∧ h.Grows h') ∨
    ∃ b h' L', r = some (plus b.start 1, h') ∧ b.len = 8 * n ∧ Shape base h' L' (b :: live) ∧ h.Grows h'

theorem find_mallocs (hs : Shape base h L live) {sbrk : Call} (hfresh : sbrk.FreshAt h) {n fuel : Nat} (hn : 0 < n)
    (hmax : 8 * n < 2 ^ 31) (hfuel : 2 * L.length + 4 ≤ fuel) :
    Mallocs base n h live (h.find sbrk n fuel h.freep (h.ptr h.freep)) := by
  rcases hs.find_spec sbrk hn (by omega : L.length < fuel) with
    ⟨b, L', h', hfind, hlen, hs', hgrows⟩ | ⟨hnone, m, prev, hm, hfind⟩
  · exact .inr ⟨b, h', L', hfind, hlen, hs', hgrows⟩
  · have hfreep : ¬ h.size h.freep ≥ n := by
      rcases mem_cons.1 hs.freep with hbase | hmem
      · rw [hbase, hs.size_base]
        exact Nat.not_le.2 hn
      · obtain ⟨c, hc, hstart⟩ := mem_map.1 hmem
        rw [← hstart]
        exact Nat.not_le.2 (hnone c hc)
    rw [hfind, Heap.find, if_neg hfreep, if_pos rfl]
    rcases hs.morecore_spec hfresh hn hmax (by omega : L.length < m) with
      hmore | ⟨h', L', hmore, hs', ⟨c, hc, hfit⟩, hlen, hgrows⟩
    · rw [hmore]
      exact .inl ⟨h, L, rfl, hs, .refl h⟩
    · rw [hmore]
      have hpos := hs'.freep_pos
      change Mallocs base n h live (if h'.freep = 0 then _ else _)
      rw [if_neg (Nat.ne_of_gt hpos)]
      -- in the second round the new block is there
      rcases hs'.find_spec sbrk hn (by omega : L'.length < m) with
        ⟨b, L'', h'', hfind', hlen', hs'', hgrows'⟩ | ⟨hnone', -⟩
      · exact .inr ⟨b, h'', L'', hfind', hlen', hs'', hgrows.trans hgrows'⟩
      · have hsmall := hnone' c hc
        have hclen := hs'.links.len c (mem_cons_of_mem _ hc)
        omega

end Shape

/-! ## The bound on the steps does not matter -/

namespace Heap

variable {h : Heap} {sbrk : Call} {n m : Nat}

theorem free_mono {ap : Nat} {h' : Heap} (hfree : h.free n ap = some h') (hnm : n ≤ m) : h.free m ap = some h' := by
  obtain ⟨p, hsearch, hret⟩ := Option.bind_eq_some_iff.1 hfree
  exact Option.bind_eq_some_iff.2 ⟨p, Lib.search_mono hsearch hnm, hret⟩

theorem morecore_mono {nu : Nat} {r : Nat × Heap} (hmore : h.morecore sbrk n nu = some r) (hnm : n ≤ m) :
    h.morecore sbrk m nu = some r := by
  unfold morecore at hmore ⊢
  simp only at hmore ⊢
  split at hmore
  · exact hmore
  · obtain ⟨h', hfree, hret⟩ := Option.bind_eq_some_iff.1 hmore
    exact Option.bind_eq_some_iff.2 ⟨h', free_mono hfree hnm, hret⟩

theorem find_mono {units prevp p : Nat} {r : Nat × Heap} (hfind : h.find sbrk units n prevp p = some r)
    (hnm : n ≤ m) : h.find sbrk units m prevp p = some r := by
  induction n generalizing m h prevp p with
  | zero =>
    cases hfind
  | succ n ih =>
    obtain ⟨k, rfl⟩ := Nat.exists_eq_add_of_le' hnm
    rw [← Nat.add_assoc, find]
    rw [find] at hfind
    split at hfind
    · rename_i hfit
      rw [if_pos hfit, hfind]
    · rename_i hfit
      rw [if_neg hfit]
      split at hfind
      · rename_i hp
        rw [if_pos hp]
        obtain ⟨⟨q, h'⟩, hmore, hrest⟩ := Option.bind_eq_some_iff.1 hfind
        refine Option.bind_eq_some_iff.2 ⟨(q, h'), morecore_mono hmore (Nat.le_add_left _ _), ?_⟩
        by_cases hq : q = 0
        · simp only [hq, if_true] at hrest ⊢
          exact hrest
        · simp only [hq] at hrest ⊢
          exact ih hrest (Nat.le_add_left _ _)
      · rename_i hp
        rw [if_neg hp]
        exact ih hfind (Nat.le_add_left _ _)

end Heap

/-! ## Runs -/

/-- Where the program keeps `base`, and what it finds in memory when it starts. -/
structure Image where
  base : Nat
  brk : Nat
  mem : Nat → Header
  base_pos : 0 < base
  base_brk : base + 8 ≤ brk
  brk_lt : brk < 2 ^ 32

/-- The heap, and the blocks that `malloc` has returned and the program has not freed. -/
structure State where
  heap : Heap
  live : List Seg

def Image.init (im : Image) : State where
  heap := { mem := im.mem, freep := 0, brk := im.brk, bottom := im.brk, units := 0 }
  live := []

/-- The block of a pointer returned by `malloc`. -/
def Heap.block (h : Heap) (ap : Nat) : Seg where
  start := (ap + (2 ^ 32 - 8)) % 2 ^ 32
  len := 8 * h.size ((ap + (2 ^ 32 - 8)) % 2 ^ 32)

/-- What the program can do: `malloc`, `free` of a live block, and write into its blocks. -/
inductive Step (base : Nat) : State → State → Prop
  | malloc {s : State} {nbytes fuel p : Nat} {sbrk : Sbrk} {h' : Heap} : nbytes < 2 ^ 31 - 2 ^ 16 →
      s.heap.malloc base sbrk.call fuel nbytes = some (p, h') →
      Step base s { heap := h', live := if p = 0 then s.live else h'.block p :: s.live }
  | free {s : State} {b : Seg} {fuel : Nat} {h' : Heap} : b ∈ s.live →
      s.heap.free fuel (plus b.start 1) = some h' → Step base s { heap := h', live := s.live.erase b }
  | write {s : State} {mem : Nat → Header} :
      (∀ a, mem a ≠ s.heap.mem a → ∃ x ∈ s.live, x.start + 8 < a + 8 ∧ a < x.stop) →
      Step base s { heap := { s.heap with mem := mem }, live := s.live }

/-- Nothing has been allocated yet, or the heap has its shape. -/
def Inv (base : Nat) (s : State) : Prop :=
  (s.heap.freep = 0 ∧ s.live = [] ∧ s.heap.units = 0 ∧ 0 < base ∧ base + 8 ≤ s.heap.bottom ∧
    s.heap.bottom ≤ s.heap.brk ∧ s.heap.brk < 2 ^ 32) ∨ ∃ L, Shape base s.heap L s.live

theorem Image.inv_init (im : Image) : Inv im.base im.init :=
  .inl ⟨rfl, rfl, rfl, im.base_pos, im.base_brk, le_rfl, im.brk_lt⟩

variable {base : Nat}

theorem start_spec {s : State} (hs : Inv base s) : ∃ L, Shape base (s.heap.start base) L s.live := by
  rcases hs with ⟨hfreep, hlive, hunits, hpos, hbottom, hbrk, hlt⟩ | ⟨L, hs⟩
  · refine ⟨[], ?_⟩
    unfold Heap.start
    rw [if_pos hfreep, hlive]
    refine
      { links := ?_
        freep := mem_cons_self
        gaps := List.pairwise_singleton _ _
        live_len := nofun
        pos := nofun
        low := nofun
        high := nofun
        live_apart := List.Pairwise.nil
        free_apart := nofun
        total := by simp [Seg.total, Heap.setPtr, Heap.setSize, hunits]
        base_pos := hpos
        base_bottom := hbottom
        bottom_brk := hbrk
        brk_lt := hlt }
    refine Heap.links_cons_iff.2 ⟨?_, ?_, Heap.links_nil _ _⟩
    · change 0 = 8 * (Heap.setSize _ base 0).size base
      rw [Heap.size_setSize_self]
    · refine congrArg some (Eq.symm ?_)
      exact (Heap.ptr_setSize _ _ _ _).trans (Heap.ptr_setPtr_self _ _ _)
  · refine ⟨L, ?_⟩
    unfold Heap.start
    rwa [if_neg (Nat.ne_of_gt hs.freep_pos)]

theorem start_grows (base : Nat) (h : Heap) : h.Grows (h.start base) := by
  unfold Heap.start
  split
  · exact ⟨le_rfl, rfl⟩
  · exact .refl h

theorem nunits_spec {nbytes : Nat} (h : nbytes ≤ 2 ^ 31 - 16) :
    0 < Heap.nunits nbytes ∧ 8 * Heap.nunits nbytes < 2 ^ 31 := by
  unfold Heap.nunits
  omega

theorem malloc_spec {base nbytes : Nat} {s : State} {sbrk : Call} (hs : Inv base s)
    (hfresh : sbrk.FreshAt (s.heap.start base)) (hn : nbytes ≤ 2 ^ 31 - 16) :
    ∃ N, ∀ fuel, N ≤ fuel →
      Shape.Mallocs base (Heap.nunits nbytes) s.heap s.live (s.heap.malloc base sbrk fuel nbytes) := by
  obtain ⟨L, hstart⟩ := start_spec hs
  obtain ⟨hpos, hmax⟩ := nunits_spec hn
  refine ⟨2 * L.length + 4, fun fuel hfuel => ?_⟩
  rcases hstart.find_mallocs hfresh hpos hmax hfuel with ⟨h', L', hr, hs', hgrows⟩ | ⟨b, h', L', hr, hlen, hs', hgrows⟩
  · exact .inl ⟨h', L', hr, hs', (start_grows base s.heap).trans hgrows⟩
  · exact .inr ⟨b, h', L', hr, hlen, hs', (start_grows base s.heap).trans hgrows⟩

theorem Shape.perm {h : Heap} {L live live' : List Seg} (hs : Shape base h L live)
    (hperm : live.Perm live') : Shape base h L live' := by
  have hall : (L ++ live).Perm (L ++ live') := hperm.append_left L
  exact
    { hs with
      live_len := fun x hx => hs.live_len x (hperm.mem_iff.2 hx)
      pos := fun x hx => hs.pos x (hall.mem_iff.2 hx)
      low := fun x hx => hs.low x (hall.mem_iff.2 hx)
      high := fun x hx => hs.high x (hall.mem_iff.2 hx)
      live_apart := (hperm.pairwise_iff fun h => h.symm).1 hs.live_apart
      free_apart := fun x hx => hs.free_apart x (hperm.mem_iff.2 hx)
      total := (Seg.total_perm hall).symm.trans hs.total }

theorem free_block_spec {s : State} {b : Seg} (hs : Inv base s) (hb : b ∈ s.live) :
    ∃ N h' L', (∀ fuel, N ≤ fuel → s.heap.free fuel (plus b.start 1) = some h') ∧
      Shape base h' L' (s.live.erase b) := by
  rcases hs with ⟨-, hlive, -⟩ | ⟨L, hs⟩
  · rw [hlive] at hb
    cases hb
  · obtain ⟨h', hfree, hs', -⟩ := (hs.perm (List.perm_cons_erase hb)).free_spec (Nat.lt_succ_self L.length)
    exact ⟨_, h', _, fun fuel hfuel => Heap.free_mono hfree hfuel, hs'⟩

theorem Shape.write {h : Heap} {L live : List Seg} (hs : Shape base h L live) {mem : Nat → Header}
    (hmem : ∀ a, mem a ≠ h.mem a → ∃ x ∈ live, x.start + 8 < a + 8 ∧ a < x.stop) :
    Shape base { h with mem := mem } L live := by
  have hsame : ∀ c ∈ L ++ live, mem c.start = h.mem c.start := by
    intro c hc
    by_contra hne
    obtain ⟨x, hx, hafter, hbefore⟩ := hmem _ hne
    have hxc : x ≠ c := by
      rintro rfl
      exact Nat.lt_irrefl _ hafter
    have hapart : x.Apart c := by
      rcases mem_append.1 hc with hc | hc
      · exact hs.free_apart x hx c hc
      · exact hs.live_apart.forall hx hc hxc
    simp only [Seg.Apart, Seg.stop] at hapart hbefore
    omega
  have hbase : mem base = h.mem base := by
    by_contra hne
    obtain ⟨x, hx, hafter, -⟩ := hmem _ hne
    have hlow := hs.base_le (mem_append_right _ hx)
    omega
  exact
    { hs with
      links := hs.links.congr (forall_mem_cons.2 ⟨hbase, fun c hc => hsame c (mem_append_left _ hc)⟩)
      live_len := fun x hx => Heap.len_congr (hs.live_len x hx) (hsame x (mem_append_right _ hx)) }

theorem Step.inv {s s' : State} (hstep : Step base s s') (hs : Inv base s) : Inv base s' := by
  cases hstep with
  | @malloc nbytes fuel p sbrk h' hn hcall =>
    have hle : nbytes ≤ 2 ^ 31 - 16 := by omega
    obtain ⟨N, hN⟩ := malloc_spec hs (sbrk.fresh _) hle
    have hmax := hN (max N fuel) (le_max_left _ _)
    have hcall' : s.heap.malloc base sbrk.call (max N fuel) nbytes = some (p, h') :=
      Heap.find_mono hcall (le_max_right _ _)
    rw [hcall'] at hmax
    rcases hmax with ⟨h'', L', heq, hs', -⟩ | ⟨b, h'', L', heq, hlen, hs', -⟩
    · cases heq
      exact .inr ⟨L', hs'⟩
    · cases heq
      have hb : b ∈ L' ++ b :: s.live := by simp
      have hheader := hs'.header_eq hb
      have hp : plus b.start 1 ≠ 0 := by
        intro hzero
        have hhigh := hs'.high b hb
        have hge := hs'.len_ge hb
        have hbrk := hs'.brk_lt
        unfold Seg.stop at hhigh
        omega
      have hblock : h'.block (plus b.start 1) = b := by
        unfold Heap.block
        rw [hheader, ← hs'.live_len b mem_cons_self]
      refine .inr ⟨L', ?_⟩
      simp only [if_neg hp, hblock]
      exact hs'
  | @free b fuel h' hb hcall =>
    obtain ⟨N, h'', L', hN, hs'⟩ := free_block_spec hs hb
    have heq := (hN (max N fuel) (le_max_left _ _)).symm.trans (Heap.free_mono hcall (le_max_right _ _))
    cases heq
    exact .inr ⟨L', hs'⟩
  | write hmem =>
    rcases hs with hs | ⟨L, hs⟩
    · exact .inl hs
    · exact .inr ⟨L, hs.write hmem⟩

/-- In every run, the list of the free blocks is circular and increasing from `base` on, no two free
blocks touch, live blocks share nothing with each other and with free ones, all of them together have
the units obtained from `sbrk`, and the next call ends. -/
theorem allocator_invariant (im : Image) {s : State}
    (hrun : Relation.ReflTransGen (Step im.base) im.init s) :
    ((s.heap.freep = 0 ∧ s.live = [] ∧ s.heap.units = 0) ∨
      ∃ L, Shape im.base s.heap L s.live ∧ (im.base :: L.map Seg.start).Pairwise (· < ·)) ∧
    (∀ nbytes, ∀ sbrk : Sbrk, nbytes < 2 ^ 31 - 2 ^ 16 →
      ∃ fuel r, s.heap.malloc im.base sbrk.call fuel nbytes = some r) ∧
    ∀ b ∈ s.live, ∃ fuel h', s.heap.free fuel (plus b.start 1) = some h' := by
  have hinv : Inv im.base s :=
    Lib.invariant_of_reachable (Inv im.base) im.inv_init (fun _ _ hs hstep => hstep.inv hs) hrun
  refine ⟨?_, fun nbytes sbrk hn => ?_, fun b hb => ?_⟩
  · rcases hinv with ⟨hfreep, hlive, hunits, -⟩ | ⟨L, hs⟩
    · exact .inl ⟨hfreep, hlive, hunits⟩
    · exact .inr ⟨L, hs, hs.increasing⟩
  · have hle : nbytes ≤ 2 ^ 31 - 16 := by omega
    obtain ⟨N, hN⟩ := malloc_spec hinv (sbrk.fresh _) hle
    rcases hN N le_rfl with ⟨h', -, heq, -⟩ | ⟨b, h', -, heq, -⟩
    · exact ⟨N, _, heq⟩
    · exact ⟨N, _, heq⟩
  · obtain ⟨N, h', -, hN, -⟩ := free_block_spec hinv hb
    exact ⟨N, h', hN N le_rfl⟩

def kernel : Sbrk where
  call h n := if h.brk + n < 2 ^ 31 then some (h.brk, h.brk + n) else none
  fresh := by
    intro h n p top _ hcall
    simp only at hcall
    split at hcall
    · cases hcall
      omega
    · cases hcall

def image : Image where
  base := 2048
  brk := 4096
  mem := fun _ => { ptr := 0, size := 0 }
  base_pos := by decide
  base_brk := by decide
  brk_lt := by decide

/-- After `malloc(24)`: four units at the end of the first 4096. -/
theorem allocator_invariant_malloc :
    ∃ s : State, s.live = [{ start := 36832, len := 32 }] ∧
      ∃ L, Shape image.base s.heap L s.live ∧ (image.base :: L.map Seg.start).Pairwise (· < ·) := by
  have hrun : (image.init.heap.malloc image.base kernel.call 4 24).map (fun r => (r.1, r.2.block r.1)) =
      some (36840, { start := 36832, len := 32 }) := by decide +kernel
  obtain ⟨⟨p, h'⟩, hcall, heq⟩ := Option.map_eq_some_iff.1 hrun
  obtain ⟨hp, hblock⟩ := Prod.mk.inj heq
  subst hp
  have hstep : Step image.base image.init _ := .malloc (by decide) hcall
  have hinv := (allocator_invariant image (.single hstep)).1
  simp only [Nat.succ_ne_zero, if_false, hblock] at hinv
  refine ⟨{ heap := h', live := [{ start := 36832, len := 32 }] }, rfl, ?_⟩
  rcases hinv with ⟨-, hlive, -⟩ | hshape
  · cases hlive
  · exact hshape

end AsoPracticas.Xv6.Umalloc
