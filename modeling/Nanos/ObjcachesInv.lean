import Nanos.Objcaches
import Nanos.Linked
import Mathlib.Algebra.BigOperators.Group.List.Basic
import Mathlib.Data.Finset.Card

set_option autoImplicit false

/-!
# The structure of an objcache

For a configuration whose pages hold their objects and their footer (`Config.Valid`: what
`allocate_objcache` gives for a page of at least the footer's size, `allocateObjcache_valid`),
every run of callers keeping the contract keeps `Inv` (`reachable_inv`). Each page owned by the
cache is aligned, its footer intact, and its recycled objects form a chain through their first
two bytes (`Linked.Chain`); its live objects are exactly the initialised ones off the chain, and
`avail` counts the rest. Pages with objects to give are on the free list, the others on the full
list, and the counts add up.

From the invariant (`reachable_structure`): `objcache_validate` passes after every step
(`Inv.validate`); an allocation hands out an object of an owned page, inside it and below its
footer, and no live one (`Inv.allocate`); a drain gives back only pages with no live object
(`Inv.drain`).
-/

namespace Nanos.Objcaches

open Nanos.Transition Nanos.Linked

/-- A configuration whose pages hold their objects, each large enough for a link, and their
    footer. -/
structure Config.Valid (c : Config) : Prop where
  objSize_two : 2 ≤ c.objSize
  objs_pos : 0 < c.objsPerPage
  objs_le : c.objsPerPage ≤ invalidIndex
  fits : c.objsPerPage * c.objSize + footerSize ≤ c.pagesize

theorem allocateObjcache_valid {pp os ps : UInt64} {self : ℕ} {c : Config}
    (h : allocateObjcache pp os ps self = some c) (hps : footerSize ≤ ps.toNat) : c.Valid := by
  unfold allocateObjcache at h
  dsimp only at h
  split at h
  · cases h
  rename_i h1
  split at h
  · cases h
  split at h
  · cases h
  rename_i h3
  cases h
  have hos : 2 ≤ os.toNat :=
    Nat.le_of_not_lt fun h => h1 (UInt64.lt_iff_toNat_lt.2 h)
  -- the subtraction does not wrap for a page that holds the footer
  have h32 : (footerSize.toUInt64 : UInt64) ≤ ps := by
    rw [UInt64.le_iff_toNat_le]
    simpa [footerSize] using hps
  have hobjs : ((ps - footerSize.toUInt64) / os).toNat = (ps.toNat - footerSize) / os.toNat := by
    rw [UInt64.toNat_div, UInt64.toNat_sub_of_le _ _ h32]
    rfl
  have hpos : 0 < (ps.toNat - footerSize) / os.toNat := by
    rw [← hobjs]
    exact Nat.pos_of_ne_zero fun h0 => h3 (UInt64.toNat_inj.1 (by simpa using h0))
  have hle : (ps.toNat - footerSize) / os.toNat * os.toNat ≤ ps.toNat - footerSize :=
    Nat.div_mul_le_self _ _
  refine ⟨hos, ?_, ?_, ?_⟩
  · split_ifs <;> simp_all
  · split_ifs with hge
    · simp [invalidIndex]
    · have hlt : ((ps - footerSize.toUInt64) / os).toNat < 65536 := by
        rw [ge_iff_le, UInt64.le_iff_toNat_le, Nat.not_le] at hge
        simpa using hge
      simp only [invalidIndex]
      omega
  · -- the objects per page are at most the quotient, capped or not
    have hcap : (if (ps - footerSize.toUInt64) / os ≥ 65536 then 65535
        else ((ps - footerSize.toUInt64) / os).toNat) ≤ (ps.toNat - footerSize) / os.toNat := by
      split_ifs with hge
      · rw [← hobjs]
        rw [ge_iff_le, UInt64.le_iff_toNat_le] at hge
        have : (65536 : UInt64).toNat = 65536 := rfl
        omega
      · exact Nat.le_of_eq hobjs
    have := Nat.mul_le_mul_right os.toNat hcap
    simp only
    omega

/-! ## Layout of a page -/

section Layout

variable {c : Config}

theorem Config.Valid.pagesize_pos (hc : c.Valid) : 0 < c.pagesize := by
  have := hc.fits
  simp only [footerSize] at this
  omega

theorem Config.Valid.objSize_pos (hc : c.Valid) : 0 < c.objSize := by
  have := hc.objSize_two
  omega

theorem Config.Valid.index_fits (hc : c.Valid) {i : ℕ} (hi : i < c.objsPerPage) :
    i * c.objSize + c.objSize + footerSize ≤ c.pagesize := by
  have hnext := Nat.mul_le_mul_right c.objSize (Nat.succ_le_of_lt hi)
  rw [Nat.succ_mul] at hnext
  have hfits := hc.fits
  omega

/-- Every object of a page lies inside it, below the footer. -/
theorem objFromIndex_below_footer (hc : c.Valid) (p : ℕ) {i : ℕ} (hi : i < c.objsPerPage) :
    p ≤ objFromIndex c p i ∧ objFromIndex c p i + c.objSize ≤ footerAddr c p := by
  have := hc.index_fits hi
  unfold objFromIndex footerAddr
  omega

theorem pageFromObj_objFromIndex (hc : c.Valid) {p i : ℕ} (hp : p % c.pagesize = 0)
    (hi : i < c.objsPerPage) : pageFromObj c (objFromIndex c p i) = p := by
  have hlt : i * c.objSize < c.pagesize := by
    have := hc.index_fits hi
    have := hc.objSize_pos
    omega
  obtain ⟨k, rfl⟩ : ∃ k, p = c.pagesize * k :=
    ⟨p / c.pagesize, (Nat.mul_div_cancel' (Nat.dvd_of_mod_eq_zero hp)).symm⟩
  unfold pageFromObj objFromIndex
  rw [Nat.add_comm, Nat.add_mul_div_left _ _ hc.pagesize_pos, Nat.div_eq_of_lt hlt, Nat.zero_add,
    Nat.mul_comm]

/-- The footer of an aligned page lies in that page: `page_from_footer` gives the page back. -/
theorem pageOfFooter_eq (hc : c.Valid) {p : ℕ} (hp : p % c.pagesize = 0) :
    pageOfFooter c p = p := by
  have hfits := hc.fits
  have hlt : c.pagesize - footerSize < c.pagesize := by
    have := hc.pagesize_pos
    simp only [footerSize]
    omega
  obtain ⟨k, rfl⟩ : ∃ k, p = c.pagesize * k :=
    ⟨p / c.pagesize, (Nat.mul_div_cancel' (Nat.dvd_of_mod_eq_zero hp)).symm⟩
  unfold pageOfFooter pageFromObj footerAddr
  rw [show c.pagesize * k + c.pagesize - footerSize = c.pagesize - footerSize + c.pagesize * k by
      omega,
    Nat.add_mul_div_left _ _ hc.pagesize_pos, Nat.div_eq_of_lt hlt, Nat.zero_add, Nat.mul_comm]

theorem indexFromObj_objFromIndex (hc : c.Valid) (p : ℕ) {i : ℕ} (hi : i < c.objsPerPage) :
    indexFromObj c p (objFromIndex c p i) = some i := by
  have hfit := hc.index_fits hi
  have hos := hc.objSize_pos
  have hlt : i < 65536 := by
    have := hc.objs_le
    simp only [invalidIndex] at this
    omega
  unfold indexFromObj objFromIndex
  rw [if_pos ⟨by omega, by omega, by simp⟩]
  simp [Nat.mul_div_cancel _ hc.objSize_pos, Nat.mod_eq_of_lt hlt]

theorem objFromIndex_eq_iff (hc : c.Valid) {p i j : ℕ} :
    objFromIndex c p i = objFromIndex c p j ↔ i = j := by
  unfold objFromIndex
  constructor
  · intro h
    exact Nat.eq_of_mul_eq_mul_right hc.objSize_pos (by omega)
  · rintro rfl
    rfl

theorem objFromIndex_inj (hc : c.Valid) {p p' i i' : ℕ} (hp : p % c.pagesize = 0)
    (hp' : p' % c.pagesize = 0) (hi : i < c.objsPerPage) (hi' : i' < c.objsPerPage)
    (h : objFromIndex c p i = objFromIndex c p' i') : p = p' ∧ i = i' := by
  have hpp : p = p' := by
    rw [← pageFromObj_objFromIndex hc hp hi, h, pageFromObj_objFromIndex hc hp' hi']
  subst hpp
  unfold objFromIndex at h
  exact ⟨rfl, Nat.eq_of_mul_eq_mul_right hc.objSize_pos (by omega)⟩

end Layout

/-! ## Updates of the state -/

section Updates

variable {c : Config} {o : Objcache} {p q : ℕ} {f : Footer}

@[simp] theorem setFooter_footer : (o.setFooter p f).footer q = if q = p then f else o.footer q :=
  Function.update_apply _ _ _ _
@[simp] theorem setFooter_freePages : (o.setFooter p f).freePages = o.freePages := rfl
@[simp] theorem setFooter_fullPages : (o.setFooter p f).fullPages = o.fullPages := rfl
@[simp] theorem setFooter_totalObjs : (o.setFooter p f).totalObjs = o.totalObjs := rfl
@[simp] theorem setFooter_allocedObjs : (o.setFooter p f).allocedObjs = o.allocedObjs := rfl
@[simp] theorem setFooter_mem : (o.setFooter p f).mem = o.mem := rfl

@[simp] theorem moveToFull_footer : (o.moveToFull p).footer = o.footer := rfl
@[simp] theorem moveToFull_freePages : (o.moveToFull p).freePages = o.freePages.erase p := rfl
@[simp] theorem moveToFull_fullPages :
    (o.moveToFull p).fullPages = o.fullPages.erase p ++ [p] := rfl
@[simp] theorem moveToFull_totalObjs : (o.moveToFull p).totalObjs = o.totalObjs := rfl
@[simp] theorem moveToFull_allocedObjs : (o.moveToFull p).allocedObjs = o.allocedObjs := rfl
@[simp] theorem moveToFull_mem : (o.moveToFull p).mem = o.mem := rfl

@[simp] theorem moveToFree_footer : (o.moveToFree p).footer = o.footer := rfl
@[simp] theorem moveToFree_freePages :
    (o.moveToFree p).freePages = p :: o.freePages.erase p := rfl
@[simp] theorem moveToFree_fullPages : (o.moveToFree p).fullPages = o.fullPages.erase p := rfl
@[simp] theorem moveToFree_totalObjs : (o.moveToFree p).totalObjs = o.totalObjs := rfl
@[simp] theorem moveToFree_allocedObjs : (o.moveToFree p).allocedObjs = o.allocedObjs := rfl
@[simp] theorem moveToFree_mem : (o.moveToFree p).mem = o.mem := rfl

@[simp] theorem removepage_footer : (objcacheRemovepage c o p).footer = o.footer := rfl
@[simp] theorem removepage_freePages :
    (objcacheRemovepage c o p).freePages = o.freePages.erase p := rfl
@[simp] theorem removepage_fullPages :
    (objcacheRemovepage c o p).fullPages = o.fullPages.erase p := rfl
@[simp] theorem removepage_totalObjs :
    (objcacheRemovepage c o p).totalObjs = o.totalObjs - c.objsPerPage := rfl
@[simp] theorem removepage_allocedObjs :
    (objcacheRemovepage c o p).allocedObjs = o.allocedObjs := rfl
@[simp] theorem removepage_mem : (objcacheRemovepage c o p).mem = o.mem := rfl

end Updates

/-! ## What the free pages can still give -/

/-- `total_avail` of `objcache_validate`: the objects the free pages can still give. -/
def freeAvail (o : Objcache) : ℕ := (o.freePages.map fun p => (o.footer p).avail).sum

theorem sum_map_update {l : List ℕ} (hl : l.Nodup) {a : ℕ} (ha : a ∈ l) (g : ℕ → ℕ) (v : ℕ) :
    (l.map (Function.update g a v)).sum + g a = (l.map g).sum + v := by
  have hout : a ∉ l.erase a := hl.not_mem_erase
  have hsame : (l.erase a).map (Function.update g a v) = (l.erase a).map g :=
    List.map_congr_left fun x hx => Function.update_of_ne (by rintro rfl; exact hout hx) _ _
  rw [← List.sum_map_erase _ ha, ← List.sum_map_erase g ha, hsame, Function.update_self]
  omega

theorem avail_update (F : ℕ → Footer) (p : ℕ) (f : Footer) :
    (fun q => (Function.update F p f q).avail) = Function.update (fun q => (F q).avail) p f.avail := by
  funext q
  by_cases hq : q = p
  · subst hq
    simp
  · simp [hq]

section Lists

variable {c : Config} {o : Objcache} {p : ℕ} {f : Footer}

theorem freeAvail_setFooter_of_mem (hnd : o.freePages.Nodup) (hp : p ∈ o.freePages) :
    freeAvail (o.setFooter p f) + (o.footer p).avail = freeAvail o + f.avail := by
  unfold freeAvail
  simp only [Objcache.setFooter, avail_update]
  exact sum_map_update hnd hp _ _

theorem freeAvail_setFooter_of_not_mem (hp : p ∉ o.freePages) :
    freeAvail (o.setFooter p f) = freeAvail o := by
  unfold freeAvail
  simp only [Objcache.setFooter]
  congr 1
  exact List.map_congr_left fun q hq => by
    rw [Function.update_of_ne (by rintro rfl; exact hp hq)]

theorem freeAvail_moveToFull (hp : p ∈ o.freePages) :
    freeAvail (o.moveToFull p) + (o.footer p).avail = freeAvail o := by
  unfold freeAvail
  rw [moveToFull_freePages, moveToFull_footer, Nat.add_comm,
    List.sum_map_erase (fun q => (o.footer q).avail) hp]

theorem freeAvail_moveToFree (hp : p ∉ o.freePages) :
    freeAvail (o.moveToFree p) = (o.footer p).avail + freeAvail o := by
  unfold freeAvail
  simp [List.erase_of_not_mem hp]

theorem freeAvail_removepage (hp : p ∈ o.freePages) :
    freeAvail (objcacheRemovepage c o p) + (o.footer p).avail = freeAvail o := by
  unfold freeAvail
  rw [removepage_freePages, removepage_footer, Nat.add_comm,
    List.sum_map_erase (fun q => (o.footer q).avail) hp]

theorem not_mem_full_of_mem_free (hnd : o.pages.Nodup) (hp : p ∈ o.freePages) :
    p ∉ o.fullPages := fun h => (List.nodup_append.1 hnd).2.2 p hp p h rfl

theorem not_mem_free_of_mem_full (hnd : o.pages.Nodup) (hp : p ∈ o.fullPages) :
    p ∉ o.freePages := fun h => (List.nodup_append.1 hnd).2.2 p h p hp rfl

theorem pages_moveToFull_perm (hnd : o.pages.Nodup) (hp : p ∈ o.freePages) :
    (o.moveToFull p).pages.Perm o.pages := by
  unfold Objcache.pages
  rw [moveToFull_freePages, moveToFull_fullPages,
    List.erase_of_not_mem (not_mem_full_of_mem_free hnd hp), ← List.append_assoc]
  calc (o.freePages.erase p ++ o.fullPages ++ [p]).Perm (p :: (o.freePages.erase p ++ o.fullPages)) :=
        List.perm_append_singleton _ _
    _ = (p :: o.freePages.erase p) ++ o.fullPages := rfl
    List.Perm _ (o.freePages ++ o.fullPages) := ((List.perm_cons_erase hp).symm).append_right _

theorem pages_moveToFree_perm (hnd : o.pages.Nodup) (hp : p ∈ o.fullPages) :
    (o.moveToFree p).pages.Perm o.pages := by
  unfold Objcache.pages
  rw [moveToFree_freePages, moveToFree_fullPages,
    List.erase_of_not_mem (not_mem_free_of_mem_full hnd hp)]
  calc (p :: o.freePages ++ o.fullPages.erase p).Perm (o.freePages ++ p :: o.fullPages.erase p) :=
        List.perm_middle.symm
    List.Perm _ (o.freePages ++ o.fullPages) := ((List.perm_cons_erase hp).symm).append_left _

theorem pages_removepage (hnd : o.pages.Nodup) (hp : p ∈ o.freePages) :
    (objcacheRemovepage c o p).pages = o.pages.erase p := by
  unfold Objcache.pages
  rw [removepage_freePages, removepage_fullPages,
    List.erase_of_not_mem (not_mem_full_of_mem_free hnd hp), List.erase_append_left _ hp]

end Lists

/-! ## The invariant -/

/-- What page `p` holds: an intact footer naming this cache; as recycled objects the chain `l`
    from `free` through their first two bytes, all initialised; `avail` counting them and the
    uninitialised objects; and as live objects exactly the initialised ones off the chain. -/
structure PageState (c : Config) (o : Objcache) (live : List ℕ) (p : ℕ) (l : List ℕ) : Prop where
  aligned : p % c.pagesize = 0
  magic : (o.footer p).magic = footerMagic
  cache : (o.footer p).cache = c.wrapper.getD c.self
  head_le : (o.footer p).head ≤ c.objsPerPage
  chain : Chain (fun i => o.mem (objFromIndex c p i)) invalidIndex (o.footer p).free l
  chain_lt : ∀ i ∈ l, i < (o.footer p).head
  nodup : l.Nodup
  avail : (o.footer p).avail = l.length + (c.objsPerPage - (o.footer p).head)
  live : ∀ i < c.objsPerPage, objFromIndex c p i ∈ live ↔ i < (o.footer p).head ∧ i ∉ l

structure Inv (c : Config) (w : World) : Prop where
  nodup : w.cache.pages.Nodup
  page : ∀ p ∈ w.cache.pages, ∃ l, PageState c w.cache w.live p l
  free_avail : ∀ p ∈ w.cache.freePages, 0 < (w.cache.footer p).avail
  full_avail : ∀ p ∈ w.cache.fullPages, (w.cache.footer p).avail = 0
  total : w.cache.totalObjs = w.cache.pages.length * c.objsPerPage
  alloced : w.cache.allocedObjs + freeAvail w.cache = w.cache.totalObjs
  count : w.cache.allocedObjs = w.live.length
  live_nodup : w.live.Nodup
  live_mem : ∀ x ∈ w.live, ∃ p ∈ w.cache.pages, ∃ i < c.objsPerPage, x = objFromIndex c p i

section PageState

variable {c : Config} {o o' : Objcache} {live live' : List ℕ} {p : ℕ} {l : List ℕ}

theorem PageState.validatePage (h : PageState c o live p l) :
    validatePage c (o.footer p) = true := by
  unfold Nanos.Objcaches.validatePage
  rw [h.magic, h.cache]
  cases c.wrapper <;> simp

theorem PageState.length_le (h : PageState c o live p l) : l.length ≤ (o.footer p).head := by
  classical
  have hsub : l.toFinset ⊆ Finset.range (o.footer p).head := fun i hi =>
    Finset.mem_range.2 (h.chain_lt i (List.mem_toFinset.1 hi))
  simpa [List.toFinset_card_of_nodup h.nodup] using Finset.card_le_card hsub

theorem PageState.length_lt (h : PageState c o live p l) {i : ℕ} (hi : i < (o.footer p).head)
    (hil : i ∉ l) : l.length < (o.footer p).head := by
  classical
  have hsub : insert i l.toFinset ⊆ Finset.range (o.footer p).head := by
    intro j hj
    rcases Finset.mem_insert.1 hj with rfl | hj
    · exact Finset.mem_range.2 hi
    · exact Finset.mem_range.2 (h.chain_lt j (List.mem_toFinset.1 hj))
  have := Finset.card_le_card hsub
  rw [Finset.card_insert_of_notMem (by simpa using hil), List.toFinset_card_of_nodup h.nodup,
    Finset.card_range] at this
  omega

theorem PageState.avail_le (h : PageState c o live p l) : (o.footer p).avail ≤ c.objsPerPage := by
  have := h.length_le
  have := h.head_le
  rw [h.avail]
  omega

theorem PageState.not_live_of_avail (h : PageState c o live p l)
    (hall : (o.footer p).avail = c.objsPerPage) {i : ℕ} (hi : i < c.objsPerPage) :
    objFromIndex c p i ∉ live := by
  classical
  have hlen : l.length = (o.footer p).head := by
    have := h.head_le
    rw [h.avail] at hall
    omega
  -- the chain fills the initialised objects
  have hfill : l.toFinset = Finset.range (o.footer p).head := by
    refine Finset.eq_of_subset_of_card_le (fun j hj => ?_) ?_
    · exact Finset.mem_range.2 (h.chain_lt j (List.mem_toFinset.1 hj))
    · simp [List.toFinset_card_of_nodup h.nodup, hlen]
  rw [h.live i hi]
  rintro ⟨hhead, hout⟩
  have : i ∈ l.toFinset := by
    rw [hfill]
    exact Finset.mem_range.2 hhead
  exact hout (List.mem_toFinset.1 this)

theorem PageState.congr (h : PageState c o live p l) (hf : o'.footer p = o.footer p)
    (hm : ∀ i ∈ l, o'.mem (objFromIndex c p i) = o.mem (objFromIndex c p i))
    (hl : ∀ i < c.objsPerPage, objFromIndex c p i ∈ live' ↔ objFromIndex c p i ∈ live) :
    PageState c o' live' p l where
  aligned := h.aligned
  magic := hf ▸ h.magic
  cache := hf ▸ h.cache
  head_le := hf ▸ h.head_le
  chain := hf ▸ h.chain.congr hm
  chain_lt := hf ▸ h.chain_lt
  nodup := h.nodup
  avail := hf ▸ h.avail
  live := fun i hi => (hl i hi).trans (hf ▸ h.live i hi)

end PageState

section Steps

variable {c : Config} {w : World}

theorem inv_initWorld : Inv c initWorld where
  nodup := List.nodup_nil
  page := by simp [initWorld, initObjcache, Objcache.pages]
  free_avail := by simp [initWorld, initObjcache]
  full_avail := by simp [initWorld, initObjcache]
  total := (Nat.zero_mul _).symm
  alloced := rfl
  count := rfl
  live_nodup := List.nodup_nil
  live_mem := by simp [initWorld]

theorem Inv.not_live_of_not_mem (hc : c.Valid) (hw : Inv c w) {p : ℕ} (hp : p % c.pagesize = 0)
    (hfresh : p ∉ w.cache.pages) {i : ℕ} (hi : i < c.objsPerPage) :
    objFromIndex c p i ∉ w.live := by
  intro hx
  obtain ⟨q, hq, j, hj, hxq⟩ := hw.live_mem _ hx
  obtain ⟨l, hps⟩ := hw.page q hq
  obtain ⟨rfl, -⟩ := objFromIndex_inj hc hp hps.aligned hi hj hxq
  exact hfresh hq

end Steps


section Allocate

variable {c : Config} {w : World} {o : Objcache} {live : List ℕ} {p : ℕ} {l : List ℕ}

theorem Inv.page_other (hw : Inv c w) {o' : Objcache} {live' : List ℕ} {q : ℕ}
    (hq : q ∈ w.cache.pages) (hf : o'.footer q = w.cache.footer q)
    (hm : ∀ i < c.objsPerPage, o'.mem (objFromIndex c q i) = w.cache.mem (objFromIndex c q i))
    (hl : ∀ i < c.objsPerPage, objFromIndex c q i ∈ live' ↔ objFromIndex c q i ∈ w.live) :
    ∃ l, PageState c o' live' q l := by
  obtain ⟨l, hps⟩ := hw.page q hq
  refine ⟨l, hps.congr hf (fun i hi => hm i ?_) hl⟩
  exact Nat.lt_of_lt_of_le (hps.chain_lt i hi) hps.head_le

/-- The object an allocation takes from a page with objects available: the first recycled one,
    else the first uninitialised one. Either way it is an object of the page that is not live,
    and with it live and `avail` one less the page is again in a page state. -/
theorem PageState.take (hc : c.Valid) (h : PageState c o live p l)
    (havail : 0 < (o.footer p).avail) :
    ∃ obj f', takeObject c o.mem p (o.footer p) = some (obj, f') ∧
      f'.avail = (o.footer p).avail ∧ (∃ i < c.objsPerPage, obj = objFromIndex c p i) ∧
      obj ∉ live ∧
      ∃ l', PageState c (o.setFooter p { f' with avail := f'.avail - 1 }) (obj :: live) p l' := by
  have hobjs := hc.objs_le
  simp only [invalidIndex] at hobjs
  by_cases hfree : (o.footer p).free = invalidIndex
  · -- no recycled object: the first uninitialised one
    have hnil : l = [] := by
      have hch := h.chain
      rw [hfree] at hch
      exact hch.eq_nil_of_stop
    subst hnil
    have hhead : (o.footer p).head < c.objsPerPage := by
      have := h.avail
      simp only [List.length_nil] at this
      omega
    refine ⟨objFromIndex c p (o.footer p).head, { o.footer p with head := (o.footer p).head + 1 },
      ?_, rfl, ⟨_, hhead, rfl⟩, ?_, [], ?_⟩
    · unfold takeObject
      rw [if_neg (by simpa using hfree), if_pos ⟨by simp only [invalidIndex]; omega, hhead⟩]
    · rw [h.live _ hhead]
      simp
    · have havail := h.avail
      simp only [List.length_nil] at havail
      refine ⟨h.aligned, by simp [h.magic], by simp [h.cache], by simpa using Nat.succ_le_of_lt hhead, ?_,
        by simp, List.nodup_nil, by simp; omega, fun i hi => ?_⟩
      · simpa [hfree] using Chain.nil
      · rw [List.mem_cons, objFromIndex_eq_iff hc, h.live i hi]
        simp only [setFooter_footer, if_true, List.not_mem_nil, not_false_eq_true, and_true]
        omega
  · -- the first recycled object, whose link is the next
    obtain ⟨l', rfl, hch⟩ := h.chain.eq_cons_of_ne hfree
    have hlt : (o.footer p).free < c.objsPerPage :=
      Nat.lt_of_lt_of_le (h.chain_lt _ List.mem_cons_self) h.head_le
    have hnd := List.nodup_cons.1 h.nodup
    refine ⟨objFromIndex c p (o.footer p).free,
      { o.footer p with free := o.mem (objFromIndex c p (o.footer p).free) }, ?_, rfl,
      ⟨_, hlt, rfl⟩, ?_, l', ?_⟩
    · unfold takeObject
      rw [if_pos hfree]
    · rw [h.live _ hlt]
      simp
    · have havail := h.avail
      simp only [List.length_cons] at havail
      refine ⟨h.aligned, by simp [h.magic], by simp [h.cache], by simpa using h.head_le,
        by simpa using hch, fun i hi => by simpa using h.chain_lt i (List.mem_cons_of_mem _ hi),
        hnd.2, by simp; omega, fun i hi => ?_⟩
      rw [List.mem_cons, objFromIndex_eq_iff hc, h.live i hi]
      simp only [setFooter_footer, if_true, List.mem_cons, not_or]
      have hfree_lt := h.chain_lt _ List.mem_cons_self
      constructor
      · rintro (rfl | ⟨hi', hne, hnot⟩)
        · exact ⟨hfree_lt, hnd.1⟩
        · exact ⟨hi', hnot⟩
      · rintro ⟨hi', hnot⟩
        by_cases hif : i = (o.footer p).free
        · exact .inl hif
        · exact .inr ⟨hi', hif, hnot⟩

/-- `objcache_allocate` on page `p` once the object is taken: the footer's `avail` goes down, the
    page moves to the full list with its last object, and the count goes up. -/
theorem allocFrom_eq (hv : validatePage c (o.footer p) = true) (hpage : pageOfFooter c p = p)
    {obj : ℕ} {f' : Footer}
    (htake : takeObject c o.mem p (o.footer p) = some (obj, f')) (hpos : f'.avail ≠ 0)
    (hle : o.allocedObjs ≤ o.totalObjs) :
    allocFrom c o p = some ({ (if f'.avail - 1 = 0
        then (o.setFooter p { f' with avail := f'.avail - 1 }).moveToFull p
        else o.setFooter p { f' with avail := f'.avail - 1 }) with
      allocedObjs := o.allocedObjs + 1 }, some obj) := by
  unfold Nanos.Objcaches.allocFrom
  simp only [hv, hpage, Bool.not_true, Bool.false_eq_true, ↓reduceIte, htake, hpos]
  split <;> simp [hle]

/-- `objcache_allocate` on a page of the free list hands out an object of that page that is not
    live, and keeps the invariant with the object live. -/
theorem Inv.allocFrom (hc : c.Valid) (hw : Inv c w) (hp : p ∈ w.cache.freePages) :
    ∃ o' x, allocFrom c w.cache p = some (o', some x) ∧
      (∃ i < c.objsPerPage, x = objFromIndex c p i) ∧ x ∉ w.live ∧ Inv c ⟨o', x :: w.live⟩ := by
  have hpages : p ∈ w.cache.pages := List.mem_append_left _ hp
  obtain ⟨l, hps⟩ := hw.page p hpages
  have havail := hw.free_avail p hp
  obtain ⟨obj, f', htake, hf'avail, ⟨i, hi, hobj⟩, hnot, l', hps'⟩ := hps.take hc havail
  have hle : w.cache.allocedObjs ≤ w.cache.totalObjs := by
    have := hw.alloced
    omega
  have heval := allocFrom_eq hps.validatePage (pageOfFooter_eq hc hps.aligned) htake (by omega) hle
  have hnd_free : w.cache.freePages.Nodup := (List.nodup_append.1 hw.nodup).1
  set F : Footer := { f' with avail := f'.avail - 1 } with hF
  have hFa : F.avail + 1 = (w.cache.footer p).avail := by
    simp only [hF]
    omega
  have hfs := freeAvail_setFooter_of_mem (f := F) hnd_free hp
  -- `p` has its new footer; the other pages keep their footers, links and live objects
  have hstates : ∀ o' : Objcache, o'.footer p = F → (∀ q, q ≠ p → o'.footer q = w.cache.footer q) →
      o'.mem = w.cache.mem → ∀ q ∈ w.cache.pages, ∃ l, PageState c o' (obj :: w.live) q l := by
    intro o' hfp hf hm q hq
    by_cases hqp : q = p
    · subst hqp
      exact ⟨l', hps'.congr (by simp [hfp]) (fun _ _ => by simp [hm]) fun _ _ => Iff.rfl⟩
    refine hw.page_other hq (hf q hqp) (fun _ _ => by rw [hm]) fun j hj => ?_
    obtain ⟨lq, hpsq⟩ := hw.page q hq
    have hne : objFromIndex c q j ≠ obj := by
      rw [hobj]
      intro h
      exact hqp (objFromIndex_inj hc hpsq.aligned hps.aligned hj hi h).1
    simp [hne]
  have hcount : w.cache.allocedObjs + 1 = (obj :: w.live).length := by
    simp [hw.count]
  have hlive_nodup : (obj :: w.live).Nodup := List.nodup_cons.2 ⟨hnot, hw.live_nodup⟩
  have hlive_mem : ∀ pages : List ℕ, (∀ q, q ∈ pages ↔ q ∈ w.cache.pages) →
      ∀ x ∈ obj :: w.live, ∃ q ∈ pages, ∃ j < c.objsPerPage, x = objFromIndex c q j := by
    intro pages hpg x hx
    rcases List.mem_cons.1 hx with rfl | hx
    · exact ⟨p, (hpg p).2 hpages, i, hi, hobj⟩
    · obtain ⟨q, hq, j, hj, rfl⟩ := hw.live_mem x hx
      exact ⟨q, (hpg q).2 hq, j, hj, rfl⟩
  by_cases hlast : F.avail = 0
  · -- the page's last object: it moves to the end of the full list
    have hfa := freeAvail_moveToFull (o := w.cache.setFooter p F) hp
    simp only [setFooter_footer, if_true, hlast, Nat.add_zero] at hfa
    set o1 := (w.cache.setFooter p F).moveToFull p with ho1
    have hperm : o1.pages.Perm w.cache.pages := pages_moveToFull_perm hw.nodup hp
    refine ⟨{ o1 with allocedObjs := w.cache.allocedObjs + 1 }, obj, ?_, ⟨i, hi, hobj⟩, hnot,
      ⟨hperm.nodup_iff.2 hw.nodup, fun q hq => ?_, fun q hq => ?_, fun q hq => ?_, ?_, ?_,
        hcount, hlive_nodup, hlive_mem _ fun q => hperm.mem_iff⟩⟩
    · rw [heval, if_pos (hlast : f'.avail - 1 = 0)]
    · exact hstates { o1 with allocedObjs := w.cache.allocedObjs + 1 } (by simp [ho1])
        (fun q' hq' => by simp [ho1, hq']) rfl q (hperm.mem_iff.1 hq)
    · have hq' : q ∈ w.cache.freePages.erase p := hq
      have hqp : q ≠ p := fun h => hnd_free.not_mem_erase (h ▸ hq')
      simpa [ho1, hqp] using hw.free_avail q (List.mem_of_mem_erase hq')
    · have hq' : q ∈ w.cache.fullPages.erase p ++ [p] := hq
      rcases List.mem_append.1 hq' with hq' | hq'
      · have hfull := List.mem_of_mem_erase hq'
        have hqp : q ≠ p := fun h => not_mem_full_of_mem_free hw.nodup hp (h ▸ hfull)
        simpa [ho1, hqp] using hw.full_avail q hfull
      · rw [List.mem_singleton.1 hq']
        simpa [ho1] using hlast
    · show o1.totalObjs = o1.pages.length * c.objsPerPage
      rw [hperm.length_eq]
      exact hw.total
    · show w.cache.allocedObjs + 1 + freeAvail o1 = o1.totalObjs
      have := hw.alloced
      show w.cache.allocedObjs + 1 + freeAvail o1 = w.cache.totalObjs
      omega
  · -- the page stays on the free list
    set o1 := w.cache.setFooter p F with ho1
    refine ⟨{ o1 with allocedObjs := w.cache.allocedObjs + 1 }, obj, ?_, ⟨i, hi, hobj⟩, hnot,
      ⟨hw.nodup, fun q hq => ?_, fun q hq => ?_, fun q hq => ?_, hw.total, ?_, hcount,
        hlive_nodup, hlive_mem _ fun _ => Iff.rfl⟩⟩
    · rw [heval, if_neg (hlast : ¬f'.avail - 1 = 0)]
    · exact hstates { o1 with allocedObjs := w.cache.allocedObjs + 1 } (by simp [ho1])
        (fun q' hq' => by simp [ho1, hq']) rfl q hq
    · by_cases hqp : q = p
      · subst hqp
        simpa [ho1] using Nat.pos_of_ne_zero hlast
      · simpa [ho1, hqp] using hw.free_avail q hq
    · have hqp : q ≠ p := fun h => not_mem_full_of_mem_free hw.nodup hp (h ▸ hq)
      simpa [ho1, hqp] using hw.full_avail q hq
    · show w.cache.allocedObjs + 1 + freeAvail o1 = w.cache.totalObjs
      have := hw.alloced
      omega

/-- A page the parent gives, aligned and not owned, joins the front of the free list with every
    object available, and the invariant stays. -/
theorem Inv.addpage (hc : c.Valid) (hw : Inv c w) (hp : p % c.pagesize = 0)
    (hfresh : p ∉ w.cache.pages) :
    ∃ o', objcacheAddpage c w.cache (some p) = some (some (o', p)) ∧
      p ∈ o'.freePages ∧ Inv c ⟨o', w.live⟩ := by
  set F : Footer := ⟨footerMagic, invalidIndex, 0, c.objsPerPage, c.wrapper.getD c.self⟩ with hF
  set o1 := w.cache.setFooter p F with ho1
  have hfree : p ∉ w.cache.freePages := fun h => hfresh (List.mem_append_left _ h)
  have hfull : p ∉ w.cache.fullPages := fun h => hfresh (List.mem_append_right _ h)
  have hpages : ∀ q, q ∈ p :: w.cache.freePages ++ w.cache.fullPages ↔ q = p ∨ q ∈ w.cache.pages := by
    intro q
    simp [Objcache.pages]
  set o2 : Objcache :=
    { o1 with freePages := p :: w.cache.freePages, totalObjs := w.cache.totalObjs + c.objsPerPage }
    with ho2
  refine ⟨o2, ?_, List.mem_cons_self, ?_⟩
  · simp [objcacheAddpage, hp, ho1, hF, ho2]
  refine ⟨List.nodup_cons.2 ⟨hfresh, hw.nodup⟩, fun q hq => ?_, fun q hq => ?_, fun q hq => ?_,
    ?_, ?_, hw.count, hw.live_nodup, fun x hx => ?_⟩
  · rcases (hpages q).1 hq with rfl | hq
    · -- the new page: no recycled object, none initialised, none live
      refine ⟨[], hp, by simp [ho2, ho1, hF], by simp [ho2, ho1, hF], by simp [ho2, ho1, hF], ?_, by simp,
        List.nodup_nil, by simp [ho2, ho1, hF], fun i hi => ?_⟩
      · simpa [ho2, ho1, hF] using Chain.nil
      · simpa [ho2, ho1, hF] using hw.not_live_of_not_mem hc hp hfresh hi
    · have hqp : q ≠ p := fun h => hfresh (h ▸ hq)
      exact hw.page_other hq (by simp [ho2, ho1, hqp]) (fun _ _ => rfl) fun _ _ => Iff.rfl
  · rcases List.mem_cons.1 hq with rfl | hq
    · simpa [ho2, ho1, hF] using hc.objs_pos
    · have hqp : q ≠ p := fun h => hfree (h ▸ hq)
      simpa [ho2, ho1, hqp] using hw.free_avail q hq
  · have hqp : q ≠ p := fun h => hfull (h ▸ hq)
    simpa [ho2, ho1, hqp] using hw.full_avail q hq
  · show w.cache.totalObjs + c.objsPerPage =
      (p :: w.cache.freePages ++ w.cache.fullPages).length * c.objsPerPage
    rw [hw.total]
    simp [Objcache.pages, Nat.succ_mul]
  · show w.cache.allocedObjs + freeAvail o2 = w.cache.totalObjs + c.objsPerPage
    have hsame : freeAvail o1 = freeAvail w.cache := freeAvail_setFooter_of_not_mem hfree
    have hcons : freeAvail o2 = c.objsPerPage + freeAvail o1 := by
      simp [freeAvail, ho1, hF, ho2]
    have := hw.alloced
    omega
  · obtain ⟨q, hq, j, hj, rfl⟩ := hw.live_mem x hx
    exact ⟨q, (hpages q).2 (.inr hq), j, hj, rfl⟩

/-- The page `objcache_allocate` takes an object from: the first free page, or the page the
    parent gives, which the invariant then takes in. -/
theorem Inv.takePage (hc : c.Valid) (hw : Inv c w) {page : Option ℕ}
    (hok : ∀ p, page = some p → p % c.pagesize = 0 ∧ p ∉ w.cache.pages) {o₁ : Objcache} {p : ℕ}
    (hs : takePage c w.cache page = some (some (o₁, p))) :
    p ∈ o₁.freePages ∧ Inv c ⟨o₁, w.live⟩ := by
  unfold Nanos.Objcaches.takePage at hs
  split at hs
  · rename_i q qs hfree
    obtain ⟨rfl, rfl⟩ := Prod.mk.inj (Option.some.inj (Option.some.inj hs))
    exact ⟨by rw [hfree]; exact List.mem_cons_self, hw⟩
  · split at hs
    · cases hs
    · cases page with
      | none => cases hs
      | some q =>
        obtain ⟨hq, hfresh⟩ := hok q rfl
        obtain ⟨o₂, heq, hq₂, hinv₂⟩ := hw.addpage hc hq hfresh
        rw [heq] at hs
        obtain ⟨rfl, rfl⟩ := Prod.mk.inj (Option.some.inj (Option.some.inj hs))
        exact ⟨hq₂, hinv₂⟩

/-- `objcache_allocate` keeps the invariant; an object it hands out is one of an owned page and
    was not live. -/
theorem Inv.allocate (hc : c.Valid) (hw : Inv c w) {size : ℕ} {page : Option ℕ}
    (hok : Allowed c w (.allocate size page)) {o' : Objcache} {r : Option ℕ}
    (hs : objcacheAllocate c w.cache size page = some (o', r)) :
    Inv c ⟨o', r.toList ++ w.live⟩ ∧
      ∀ x, r = some x → x ∉ w.live ∧ ∃ p ∈ o'.pages, ∃ i < c.objsPerPage, x = objFromIndex c p i := by
  unfold objcacheAllocate at hs
  split at hs
  · -- a wrong size
    obtain ⟨rfl, rfl⟩ := Prod.mk.inj (Option.some.inj hs)
    exact ⟨hw, by simp⟩
  · split at hs
    · cases hs
    · -- no page to be had
      obtain ⟨rfl, rfl⟩ := Prod.mk.inj (Option.some.inj hs)
      exact ⟨hw, by simp⟩
    · rename_i o₁ p htake
      obtain ⟨hp, hinv₁⟩ := hw.takePage hc hok htake
      obtain ⟨o₂, x, heq, -, hnot, hinv₂⟩ := hinv₁.allocFrom hc hp
      rw [heq] at hs
      obtain ⟨rfl, rfl⟩ := Prod.mk.inj (Option.some.inj hs)
      obtain ⟨q, hq, j, hj, hxq⟩ := hinv₂.live_mem x List.mem_cons_self
      exact ⟨hinv₂, fun x' hx' => by cases hx'; exact ⟨hnot, q, hq, j, hj, hxq⟩⟩

end Allocate


section Deallocate

variable {c : Config} {w : World}

/-- `objcache_deallocate` of a live object of page `p`: a full page moves back to the free list,
    the object's first bytes link to the old first recycled object, and it becomes the first. -/
theorem Inv.deallocate_eq (hc : c.Valid) (hw : Inv c w) {p i : ℕ} {l : List ℕ}
    (hps : PageState c w.cache w.live p l) (hi : i < c.objsPerPage)
    (hil : i < (w.cache.footer p).head ∧ i ∉ l) (hx : objFromIndex c p i ∈ w.live) :
    objcacheDeallocate c w.cache (objFromIndex c p i) c.objSize =
      some { ((if (w.cache.footer p).avail = 0 then w.cache.moveToFree p else w.cache).setFooter p
          { w.cache.footer p with free := i, avail := (w.cache.footer p).avail + 1 }) with
        mem := Function.update w.cache.mem (objFromIndex c p i) (w.cache.footer p).free,
        allocedObjs := w.cache.allocedObjs - 1 } := by
  have hlt := hps.length_lt hil.1 hil.2
  have hobjs := hc.objs_le
  simp only [invalidIndex] at hobjs
  have havail : (w.cache.footer p).avail + 1 ≤ c.objsPerPage := by
    have := hps.avail
    have := hps.head_le
    omega
  have hpos : w.cache.allocedObjs ≠ 0 := by
    rw [hw.count]
    exact List.length_pos_of_mem hx |>.ne'
  -- a full page has no recycled object
  have hfull : ¬((w.cache.footer p).avail = 0 ∧ (w.cache.footer p).free ≠ invalidIndex) := by
    rintro ⟨h0, hfree⟩
    obtain ⟨l', rfl, -⟩ := hps.chain.eq_cons_of_ne hfree
    rw [hps.avail] at h0
    simp at h0
  unfold objcacheDeallocate
  simp only [ne_eq, not_true_eq_false, ↓reduceIte, pageFromObj_objFromIndex hc hps.aligned hi,
    hps.validatePage, Bool.not_true, Bool.false_eq_true, hfull]
  rw [indexFromObj_objFromIndex hc p hi]
  -- a move between the lists keeps the count and the memory
  have hmod : ((w.cache.footer p).avail + 1) % 2 ^ 16 = (w.cache.footer p).avail + 1 :=
    Nat.mod_eq_of_lt (by omega)
  have halloc : (if (w.cache.footer p).avail = 0 then w.cache.moveToFree p
      else w.cache).allocedObjs = w.cache.allocedObjs := by
    split <;> rfl
  have hmem : (if (w.cache.footer p).avail = 0 then w.cache.moveToFree p
      else w.cache).mem = w.cache.mem := by
    split <;> rfl
  simp only [hmod, halloc, hmem, hpos, or_false]
  rw [if_neg (by omega)]

/-- The page of a released object: the object becomes the first recycled one, its first bytes
    linking to the old first. -/
theorem PageState.release (hc : c.Valid) {o o' : Objcache} {live : List ℕ} {p i : ℕ}
    {l : List ℕ} (h : PageState c o live p l) (hi : i < c.objsPerPage)
    (hil : i < (o.footer p).head ∧ i ∉ l) (hnd : live.Nodup)
    (hf : o'.footer p = { o.footer p with free := i, avail := (o.footer p).avail + 1 })
    (hm : o'.mem = Function.update o.mem (objFromIndex c p i) (o.footer p).free) :
    PageState c o' (live.erase (objFromIndex c p i)) p (i :: l) := by
  have hobjs := hc.objs_le
  simp only [invalidIndex] at hobjs
  refine ⟨h.aligned, by simp [hf, h.magic], by simp [hf, h.cache], by simpa [hf] using h.head_le,
    ?_, ?_, List.nodup_cons.2 ⟨hil.2, h.nodup⟩, by simp [hf, h.avail]; omega, fun j hj => ?_⟩
  · -- the chain gains the object in front, its link the old start
    rw [hf]
    refine h.chain.push (by simp only [invalidIndex]; omega) (by simp [hm]) fun y hy => ?_
    have hyi : y ≠ i := fun hyi => hil.2 (hyi ▸ hy)
    simp [hm, objFromIndex_eq_iff hc, hyi]
  · intro j hj
    rw [hf]
    rcases List.mem_cons.1 hj with rfl | hj
    · exact hil.1
    · exact h.chain_lt j hj
  · rw [hnd.mem_erase_iff, ne_eq, objFromIndex_eq_iff hc, h.live j hj, hf]
    simp only [List.mem_cons, not_or]
    constructor
    · rintro ⟨hji, hjh, hjl⟩
      exact ⟨hjh, hji, hjl⟩
    · rintro ⟨hjh, hji, hjl⟩
      exact ⟨hji, hjh, hjl⟩

/-- `objcache_deallocate` of a live object keeps the invariant, the object no longer live. -/
theorem Inv.deallocate (hc : c.Valid) (hw : Inv c w) {x size : ℕ}
    (hok : Allowed c w (.deallocate x size)) {o' : Objcache}
    (hs : objcacheDeallocate c w.cache x size = some o') : Inv c ⟨o', w.live.erase x⟩ := by
  obtain ⟨hx, rfl⟩ := hok
  obtain ⟨p, hp, i, hi, rfl⟩ := hw.live_mem _ hx
  obtain ⟨l, hps⟩ := hw.page p hp
  have hil := (hps.live i hi).1 hx
  rw [hw.deallocate_eq hc hps hi hil hx] at hs
  cases hs
  set F : Footer := { w.cache.footer p with free := i, avail := (w.cache.footer p).avail + 1 }
    with hF
  have hnd_free : w.cache.freePages.Nodup := (List.nodup_append.1 hw.nodup).1
  have hcount : w.cache.allocedObjs - 1 = (w.live.erase (objFromIndex c p i)).length := by
    rw [List.length_erase_of_mem hx, hw.count]
  have hnd_live := hw.live_nodup.erase (objFromIndex c p i)
  have hpos : w.cache.allocedObjs ≠ 0 := by
    rw [hw.count]
    exact (List.length_pos_of_mem hx).ne'
  -- `p` takes the object back; the other pages keep their state, the object is not theirs
  have hpages : ∀ o' : Objcache, o'.footer p = F → (∀ q, q ≠ p → o'.footer q = w.cache.footer q) →
      o'.mem = Function.update w.cache.mem (objFromIndex c p i) (w.cache.footer p).free →
      ∀ q ∈ w.cache.pages, ∃ l, PageState c o' (w.live.erase (objFromIndex c p i)) q l := by
    intro o' hfp hf hm q hq
    by_cases hqp : q = p
    · subst hqp
      exact ⟨_, hps.release hc hi hil hw.live_nodup hfp hm⟩
    obtain ⟨lq, hpsq⟩ := hw.page q hq
    have hne : ∀ j < c.objsPerPage, objFromIndex c q j ≠ objFromIndex c p i := fun j hj h =>
      hqp (objFromIndex_inj hc hpsq.aligned hps.aligned hj hi h).1
    refine hw.page_other hq (hf q hqp) (fun j hj => by simp [hm, hne j hj]) fun j hj => ?_
    rw [hw.live_nodup.mem_erase_iff]
    simp [hne j hj]
  have hlive_mem : ∀ pages : List ℕ, (∀ q, q ∈ pages ↔ q ∈ w.cache.pages) →
      ∀ y ∈ w.live.erase (objFromIndex c p i), ∃ q ∈ pages, ∃ j < c.objsPerPage,
        y = objFromIndex c q j := by
    intro pages hpg y hy
    obtain ⟨q, hq, j, hj, rfl⟩ := hw.live_mem y (List.mem_of_mem_erase hy)
    exact ⟨q, (hpg q).2 hq, j, hj, rfl⟩
  by_cases h0 : (w.cache.footer p).avail = 0
  · -- a full page: it moves back to the front of the free list
    have hpfull : p ∈ w.cache.fullPages := by
      rcases List.mem_append.1 hp with hp | hp
      · exact absurd h0 (Nat.pos_iff_ne_zero.1 (hw.free_avail p hp))
      · exact hp
    have hpfree := not_mem_free_of_mem_full hw.nodup hpfull
    have hfm := freeAvail_moveToFree (o := w.cache) hpfree
    have hfs := freeAvail_setFooter_of_mem (o := w.cache.moveToFree p) (p := p) (f := F)
      (by simpa using List.nodup_cons.2 ⟨hnd_free.not_mem_erase, hnd_free.erase p⟩)
      (by simp)
    have hFa : F.avail = (w.cache.footer p).avail + 1 := rfl
    set o1 := (w.cache.moveToFree p).setFooter p F with ho1
    have hperm : o1.pages.Perm w.cache.pages := pages_moveToFree_perm hw.nodup hpfull
    simp only [if_pos h0]
    refine ⟨hperm.nodup_iff.2 hw.nodup, fun q hq => ?_, fun q hq => ?_, fun q hq => ?_, ?_, ?_,
      hcount, hnd_live, hlive_mem _ fun q => hperm.mem_iff⟩
    · exact hpages _ (by simp) (fun q' hq' => by simp [hq']) rfl q (hperm.mem_iff.1 hq)
    · by_cases hqp : q = p
      · subst hqp
        simp [hF]
      · have hq' : q ∈ w.cache.freePages := by
          have : q ∈ p :: w.cache.freePages.erase p := hq
          exact List.mem_of_mem_erase ((List.mem_cons.1 this).resolve_left hqp)
        simpa [ho1, hqp] using hw.free_avail q hq'
    · have hq' : q ∈ w.cache.fullPages.erase p := hq
      have hqp : q ≠ p := fun h => hw.nodup.sublist (List.sublist_append_right _ _) |>.not_mem_erase
        (h ▸ hq')
      simpa [ho1, hqp] using hw.full_avail q (List.mem_of_mem_erase hq')
    · show o1.totalObjs = o1.pages.length * c.objsPerPage
      rw [hperm.length_eq]
      exact hw.total
    · show w.cache.allocedObjs - 1 + freeAvail o1 = w.cache.totalObjs
      have := hw.alloced
      simp only [moveToFree_footer] at hfs
      omega
  · -- the page was on the free list and stays there
    have hpfree : p ∈ w.cache.freePages := by
      rcases List.mem_append.1 hp with hp | hp
      · exact hp
      · exact absurd (hw.full_avail p hp) h0
    have hfs := freeAvail_setFooter_of_mem (o := w.cache) (f := F) hnd_free hpfree
    have hFa : F.avail = (w.cache.footer p).avail + 1 := rfl
    set o1 := w.cache.setFooter p F with ho1
    simp only [if_neg h0]
    refine ⟨hw.nodup, fun q hq => ?_, fun q hq => ?_, fun q hq => ?_, hw.total, ?_, hcount,
      hnd_live, hlive_mem _ fun _ => Iff.rfl⟩
    · exact hpages _ (by simp) (fun q' hq' => by simp [hq']) rfl q hq
    · by_cases hqp : q = p
      · subst hqp
        simp [hF]
      · simpa [ho1, hqp] using hw.free_avail q hq
    · have hqp : q ≠ p := fun h => not_mem_full_of_mem_free hw.nodup hpfree (h ▸ hq)
      simpa [ho1, hqp] using hw.full_avail q hq
    · show w.cache.allocedObjs - 1 + freeAvail o1 = w.cache.totalObjs
      have := hw.alloced
      omega


end Deallocate


section Drain

variable {c : Config} {w : World}

/-- `objcache_removepage` of a free page with every object available keeps the invariant. -/
theorem Inv.removepage (hw : Inv c w) {p : ℕ} (hp : p ∈ w.cache.freePages)
    (hall : (w.cache.footer p).avail = c.objsPerPage) :
    Inv c ⟨objcacheRemovepage c w.cache p, w.live⟩ := by
  have hpages : p ∈ w.cache.pages := List.mem_append_left _ hp
  obtain ⟨l, hps⟩ := hw.page p hpages
  have heq := pages_removepage (c := c) hw.nodup hp
  have hmem : ∀ q, q ∈ (objcacheRemovepage c w.cache p).pages ↔ q ≠ p ∧ q ∈ w.cache.pages := by
    intro q
    rw [heq, hw.nodup.mem_erase_iff]
  have hfa := freeAvail_removepage (c := c) hp
  refine ⟨by rw [heq]; exact hw.nodup.erase p, fun q hq => ?_, fun q hq => ?_, fun q hq => ?_, ?_,
    ?_, hw.count, hw.live_nodup, fun x hx => ?_⟩
  · obtain ⟨-, hq⟩ := (hmem q).1 hq
    exact hw.page_other hq rfl (fun _ _ => rfl) fun _ _ => Iff.rfl
  · exact hw.free_avail q (List.mem_of_mem_erase hq)
  · exact hw.full_avail q (List.mem_of_mem_erase hq)
  · show w.cache.totalObjs - c.objsPerPage =
      (objcacheRemovepage c w.cache p).pages.length * c.objsPerPage
    rw [heq, List.length_erase_of_mem hpages, hw.total, Nat.sub_one_mul]
  · show w.cache.allocedObjs + freeAvail (objcacheRemovepage c w.cache p) =
      w.cache.totalObjs - c.objsPerPage
    have := hw.alloced
    omega
  · -- the page had no live object
    obtain ⟨q, hq, j, hj, rfl⟩ := hw.live_mem x hx
    have hqp : q ≠ p := by
      rintro rfl
      exact hps.not_live_of_avail hall hj hx
    exact ⟨q, (hmem q).2 ⟨hqp, hq⟩, j, hj, rfl⟩

/-- A drain so far: the cache keeps the invariant and the pages given back held no live object. -/
def DrainOk (c : Config) (live : List ℕ) (d : Drain) : Prop :=
  Inv c ⟨d.cache, live⟩ ∧ ∀ p ∈ d.released, ∀ i < c.objsPerPage, objFromIndex c p i ∉ live

theorem DrainOk.remove (hc : c.Valid) {live : List ℕ} {d : Drain} (hd : DrainOk c live d)
    {p : ℕ} (hp : p ∈ d.cache.freePages) (hall : (d.cache.footer p).avail = c.objsPerPage) :
    DrainOk c live (d.remove c p) := by
  obtain ⟨l, hps⟩ := hd.1.page p (List.mem_append_left _ hp)
  refine ⟨hd.1.removepage hp hall, fun q hq => ?_⟩
  rcases List.mem_append.1 hq with hq | hq
  · exact hd.2 q hq
  · rw [List.mem_singleton.1 hq, pageOfFooter_eq hc hps.aligned]
    exact fun i hi => hps.not_live_of_avail hall hi

theorem DrainOk.setRetained {live : List ℕ} {d : Drain} (hd : DrainOk c live d) (r : ℕ) :
    DrainOk c live { d with retained := r } :=
  hd

theorem mem_free_of_remove {d : Drain} {p : ℕ} {ps : List ℕ} (hnd : (p :: ps).Nodup)
    (hps : ∀ q ∈ p :: ps, q ∈ d.cache.freePages) : ∀ q ∈ ps, q ∈ (d.remove c p).cache.freePages := by
  intro q hq
  have hqp : q ≠ p := fun h => (List.nodup_cons.1 hnd).1 (h ▸ hq)
  exact (List.mem_erase_of_ne hqp).2 (hps q (List.mem_cons_of_mem _ hq))

/-- The first pass of `objcache_drain` keeps a drain sound, over any free pages it visits. -/
theorem drainFirst_ok (hc : c.Valid) {live : List ℕ} (size retain : ℕ) :
    ∀ (ps : List ℕ) (d : Drain), DrainOk c live d → ps.Nodup →
      (∀ q ∈ ps, q ∈ d.cache.freePages) → DrainOk c live (drainFirst c size retain ps d).1
  | [], d, hd, _, _ => hd
  | p :: ps, d, hd, hnd, hps => by
    unfold drainFirst
    split
    · rename_i hcond
      have hd' := hd.remove hc (hps p List.mem_cons_self) hcond.2
      dsimp only
      split
      · exact hd'
      · exact drainFirst_ok hc size retain ps _ hd' (List.nodup_cons.1 hnd).2
          (mem_free_of_remove hnd hps)
    · exact drainFirst_ok hc size retain ps _ (hd.setRetained _) (List.nodup_cons.1 hnd).2
        fun q hq => hps q (List.mem_cons_of_mem _ hq)

theorem drainSecond_ok (hc : c.Valid) {live : List ℕ} (size retain : ℕ) :
    ∀ (ps : List ℕ) (d : Drain), DrainOk c live d → ps.Nodup →
      (∀ q ∈ ps, q ∈ d.cache.freePages) → DrainOk c live (drainSecond c size retain ps d)
  | [], d, hd, _, _ => hd
  | p :: ps, d, hd, hnd, hps => by
    unfold drainSecond
    split
    · exact hd
    · split
      · rename_i hall
        have hd' := hd.remove hc (hps p List.mem_cons_self) hall
        dsimp only
        split
        · exact hd'
        · exact drainSecond_ok hc size retain ps _ (hd'.setRetained _) (List.nodup_cons.1 hnd).2
            (mem_free_of_remove hnd hps)
      · exact drainSecond_ok hc size retain ps _ hd (List.nodup_cons.1 hnd).2
          fun q hq => hps q (List.mem_cons_of_mem _ hq)

/-- `objcache_drain` keeps the invariant and gives back only pages that hold no live object. -/
theorem Inv.drain (hc : c.Valid) (hw : Inv c w) (size retain : ℕ) :
    DrainOk c w.live (objcacheDrain c w.cache size retain) := by
  have h0 : DrainOk c w.live ⟨w.cache, 0, 0, []⟩ := ⟨hw, by simp⟩
  have h1 := drainFirst_ok hc size retain w.cache.freePages _ h0
    (List.nodup_append.1 hw.nodup).1 fun _ hq => hq
  unfold objcacheDrain
  dsimp only
  split
  · exact h1
  · exact drainSecond_ok hc size retain _ _ h1 (List.nodup_append.1 h1.1.nodup).1 fun _ hq => hq

end Drain


section Validate

variable {c : Config} {w : World}

/-- The walk of `objcache_validate` over a chain of recycled objects, all of the page, finds its
    length. The induction is on the chain; each step follows one link. -/
theorem walkFree_chain {mem : ℕ → ℕ} {p : ℕ} :
    ∀ {a : ℕ} {l : List ℕ} {tally fuel : ℕ},
      Chain (fun i => mem (objFromIndex c p i)) invalidIndex a l → l ≠ [] →
      (∀ i ∈ l, i < c.objsPerPage) → tally + l.length ≤ invalidIndex → l.length ≤ fuel →
      walkFree c mem p fuel a tally = some (tally + l.length)
  | a, [], _, _, _, hne, _, _, _ => absurd rfl hne
  | a, x :: l, tally, fuel, hch, _, hlt, hcap, hfuel => by
    obtain ⟨rfl, hx, hrest⟩ := hch.cons_inv
    obtain ⟨fuel, rfl⟩ : ∃ f, fuel = f + 1 := ⟨fuel - 1, by simp at hfuel; omega⟩
    have hxlt := hlt a List.mem_cons_self
    simp only [List.length_cons] at hcap hfuel
    unfold walkFree
    rw [if_neg (by omega)]
    dsimp only
    cases l with
    | nil =>
      -- the last object links to the end
      rw [hrest.nil_inv]
      simp only [ne_eq, not_true_eq_false, false_and, ↓reduceIte]
      rw [if_neg (by omega)]
      rfl
    | cons y l =>
      obtain ⟨hy, -, -⟩ := hrest.cons_inv
      have hnext : mem (objFromIndex c p a) ≠ invalidIndex := by
        rw [hy]
        exact hrest.ne_stop_of_mem List.mem_cons_self
      rw [if_pos ⟨hnext, by simp only [List.length_cons] at hcap; omega⟩,
        walkFree_chain hrest (List.cons_ne_nil _ _) (fun i hi => hlt i (List.mem_cons_of_mem _ hi))
          (by omega) (by omega)]
      congr 1
      simp only [List.length_cons]
      omega

theorem Inv.validateFreePage (hc : c.Valid) (hw : Inv c w) {p : ℕ} (hp : p ∈ w.cache.freePages) :
    validateFreePage c w.cache p = some (w.cache.footer p).avail := by
  obtain ⟨l, hps⟩ := hw.page p (List.mem_append_left _ hp)
  have havail := hw.free_avail p hp
  have hobjs := hc.objs_le
  have hlen := hps.length_le
  have hhead := hps.head_le
  have hav := hps.avail
  -- the tally of the recycled objects is the chain's length
  have htally : (if (w.cache.footer p).free ≠ invalidIndex then
      walkFree c w.cache.mem p (invalidIndex + 1) (w.cache.footer p).free 0 else some 0) =
      some l.length := by
    split
    · rename_i hfree
      obtain ⟨l', rfl, -⟩ := hps.chain.eq_cons_of_ne hfree
      rw [walkFree_chain hps.chain (List.cons_ne_nil _ _)
        (fun i hi => Nat.lt_of_lt_of_le (hps.chain_lt i hi) hhead) (by omega) (by omega)]
      simp
    · rename_i hfree
      rw [not_not] at hfree
      have hch := hps.chain
      rw [hfree] at hch
      rw [hch.eq_nil_of_stop]
      rfl
  have hnotfull : ¬((w.cache.footer p).free = invalidIndex ∧
      (w.cache.footer p).head = c.objsPerPage) := by
    rintro ⟨hfree, hfull⟩
    have hch := hps.chain
    rw [hfree] at hch
    rw [hch.eq_nil_of_stop] at hav
    simp only [List.length_nil] at hav
    omega
  unfold Nanos.Objcaches.validateFreePage
  simp only [hps.validatePage, Bool.not_true, Nat.pos_iff_ne_zero.1 havail, decide_false,
    Bool.or_false, Bool.false_eq_true, ↓reduceIte, hnotfull]
  rw [pageOfFooter_eq hc hps.aligned, htally]
  simp only [Nat.not_lt.2 hhead, ↓reduceIte]
  rw [if_neg (by omega)]

theorem Inv.validateFullPage (hw : Inv c w) {p : ℕ} (hp : p ∈ w.cache.fullPages) :
    validateFullPage c w.cache p = true := by
  obtain ⟨l, hps⟩ := hw.page p (List.mem_append_right _ hp)
  have h0 := hw.full_avail p hp
  have hav := hps.avail
  have hnil : l = [] := List.eq_nil_of_length_eq_zero (by omega)
  subst hnil
  unfold Nanos.Objcaches.validateFullPage
  simp [hps.validatePage, h0, hps.chain.nil_inv]
  omega

theorem mapM_some {α β : Type} {f : α → Option β} {g : α → β} :
    ∀ {l : List α}, (∀ a ∈ l, f a = some (g a)) → l.mapM f = some (l.map g)
  | [], _ => rfl
  | a :: l, h => by
    rw [List.mapM_cons, h a List.mem_cons_self,
      mapM_some fun b hb => h b (List.mem_cons_of_mem _ hb)]
    rfl

/-- `objcache_validate` passes in every state with the invariant. -/
theorem Inv.validate (hc : c.Valid) (hw : Inv c w) : objcacheValidate c w.cache = true := by
  have hfree : w.cache.freePages.mapM (Nanos.Objcaches.validateFreePage c w.cache) =
      some (w.cache.freePages.map fun p => (w.cache.footer p).avail) :=
    mapM_some fun p hp => hw.validateFreePage hc hp
  unfold objcacheValidate
  rw [hfree]
  have htotal := hw.total
  have halloced := hw.alloced
  simp only [Objcache.pages, List.length_append] at htotal
  simp only [freeAvail] at halloced
  simp only [List.all_eq_true, Bool.and_eq_true, decide_eq_true_eq, ← htotal, and_true]
  exact ⟨fun p hp => hw.validateFullPage hp, by omega⟩

end Validate


/-! ## Runs -/

section Runs

variable {c : Config}

/-- One step of the world keeps the invariant, for every action the callers may make. -/
theorem step_inv (hc : c.Valid) {w w' : World} {act : Action} (hw : Inv c w)
    (hok : Allowed c w act) (hs : World.step c w act = some w') : Inv c w' := by
  cases act with
  | allocate size page =>
    obtain ⟨⟨o', r⟩, hr, rfl⟩ := Option.map_eq_some_iff.1 hs
    exact (hw.allocate hc hok hr).1
  | deallocate x size =>
    obtain ⟨o', hr, rfl⟩ := Option.map_eq_some_iff.1 hs
    exact hw.deallocate hc hok hr
  | drain size retain =>
    cases hs
    exact (hw.drain hc size retain).1

theorem reachable_inv (hc : c.Valid) {w : World}
    (h : Reachable (World.step c) (Allowed c) initWorld w) : Inv c w :=
  h.invariant (Inv c) inv_initWorld fun _ _ _ hi hok hs => step_inv hc hi hok hs

/-- In every reachable world `objcache_validate` passes, an allocation hands out an object of a
    page of the cache, inside it and below its footer, and no live one, and a drain gives back
    only pages holding no live object. -/
theorem reachable_structure (hc : c.Valid) {w : World}
    (h : Reachable (World.step c) (Allowed c) initWorld w) :
    objcacheValidate c w.cache = true ∧
    (∀ size page o' x, Allowed c w (.allocate size page) →
      objcacheAllocate c w.cache size page = some (o', some x) →
      x ∉ w.live ∧ ∃ p ∈ o'.pages, ∃ i < c.objsPerPage, x = objFromIndex c p i ∧
        p ≤ x ∧ x + c.objSize ≤ footerAddr c p) ∧
    (∀ size retain, ∀ p ∈ (objcacheDrain c w.cache size retain).released,
      ∀ i < c.objsPerPage, objFromIndex c p i ∉ w.live) := by
  have hw := reachable_inv hc h
  refine ⟨hw.validate hc, fun size page o' x hok hs => ?_, fun size retain => (hw.drain hc size retain).2⟩
  obtain ⟨hnot, p, hp, i, hi, rfl⟩ := (hw.allocate hc hok hs).2 x rfl
  exact ⟨hnot, p, hp, i, hi, rfl, objFromIndex_below_footer hc p hi⟩

/-- In every reachable world `objcache_from_object`, given the cache's page size, finds the
    cache's own heap in the footer of the page of each live object: the heap that
    `mcache_dealloc` releases the object to. -/
theorem reachable_objcacheFromObject (hc : c.Valid) {w : World}
    (h : Reachable (World.step c) (Allowed c) initWorld w) {x : ℕ} (hx : x ∈ w.live) :
    objcacheFromObject w.cache x c.pagesize = some (c.wrapper.getD c.self) := by
  have hw := reachable_inv hc h
  obtain ⟨p, hp, i, hi, rfl⟩ := hw.live_mem x hx
  obtain ⟨l, hps⟩ := hw.page p hp
  -- the object's page is `p`, whose footer the cache wrote
  have hpage : objFromIndex c p i / c.pagesize * c.pagesize = p :=
    pageFromObj_objFromIndex hc hps.aligned hi
  unfold objcacheFromObject
  rw [hpage, if_pos hps.magic, hps.cache]

/-- A cache of 32-byte objects on 256-byte pages, seven to a page: two objects handed out from
    the page at 512. -/
theorem reachable_structure_two :
    ∃ w, run (World.step (⟨32, 256, 7, 1, none, false⟩ : Config)) initWorld
        [.allocate 32 (some 512), .allocate 32 none] = some w ∧
      objcacheValidate ⟨32, 256, 7, 1, none, false⟩ w.cache = true ∧
      (∀ size page o' x, Allowed ⟨32, 256, 7, 1, none, false⟩ w (.allocate size page) →
        objcacheAllocate ⟨32, 256, 7, 1, none, false⟩ w.cache size page = some (o', some x) →
        x ∉ w.live ∧ ∃ p ∈ o'.pages, ∃ i < 7, x = objFromIndex ⟨32, 256, 7, 1, none, false⟩ p i ∧
          p ≤ x ∧ x + 32 ≤ footerAddr ⟨32, 256, 7, 1, none, false⟩ p) ∧
      (∀ size retain, ∀ p ∈ (objcacheDrain ⟨32, 256, 7, 1, none, false⟩ w.cache size retain).released,
        ∀ i < 7, objFromIndex ⟨32, 256, 7, 1, none, false⟩ p i ∉ w.live) := by
  have hc : Config.Valid ⟨32, 256, 7, 1, none, false⟩ := ⟨by decide, by decide, by decide, by decide⟩
  obtain ⟨w, hw⟩ : ∃ w, run (World.step (⟨32, 256, 7, 1, none, false⟩ : Config)) initWorld
      [.allocate 32 (some 512), .allocate 32 none] = some w := ⟨_, rfl⟩
  refine ⟨w, hw, reachable_structure hc (Reachable.of_run_allowed hw ?_)⟩
  -- the page the parent hands out is aligned and new to the cache
  refine ⟨fun p hp => ?_, fun w₁ h₁ => ?_⟩
  · cases hp
    decide
  · cases h₁
    exact ⟨fun p hp => (nomatch hp), fun _ _ => trivial⟩

end Runs

end Nanos.Objcaches
