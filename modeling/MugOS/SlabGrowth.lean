import MugOS.SlabMoves
import MugOS.SlabRecursion

/-!
# New Slabs

A cache grows by a slab: pages are allocated, with an object of `kmalloc` for the header if that is
not on them; the pages are entered into the hash map, and the slab is put into the list of empty
slabs. The invariant holds after each of these, with the slab loose in between. When the hash map
cannot grow, the entries are deleted again, and the slab stays loose for ever.

## Main results

* `insertPages_spec`, `deletePages_spec`: the loops over the pages of a slab.
* `allocateSlab_spec`: a new slab that is in no list.
* `growCache_spec`: a cache that grows.
-/

namespace MugOS.SlabAllocator

open LinkedList Hashmap

/-! ### The loops over the pages of a slab -/

/-- **Entering pages into the map**: those before the first failure are entered, and what the pages
in use are used for stays the same, apart from the array of the map. -/
theorem insertPages_spec {src : PageSource} (hsrc : src.Sound) (slab : ℕ) {addrs : List ℕ}
    {map : Hashmap ℕ} {ps : Pages} (h : Wf map)
    (haddr : ∀ x ∈ addrs, getPage x ≠ 0 ∧ x < 2 ^ 64) (hnodup : (addrs.map getPage).Nodup)
    (hnew : ∀ x ∈ addrs, ∀ v, ¬ Contains map.entries (getPage x) v) {owner : ℕ → Option Owner}
    (howned : ∀ q o, owner q = some o → q ∈ ps.owned)
    (htable : ∀ q ∈ pages map.base (mapPages map), owner q = some .table) :
    ∃ entered failed map' ps', addrs = entered ++ failed ∧
      insertPages src slab addrs map ps = .ok (failed, map', ps') ∧ Wf map' ∧
      (Probe.Probed map.totalEntries (home map.totalEntries) (slots map.entries) →
        Probe.Probed map'.totalEntries (home map'.totalEntries) (slots map'.entries)) ∧
      (∀ k v, k ≠ 0 → (Contains map'.entries k v ↔
        (k ∈ entered.map getPage ∧ v = slab) ∨ Contains map.entries k v)) ∧
      ps.refused ≤ ps'.refused ∧ (failed = [] ↔ ps'.refused = ps.refused) ∧
      ∃ owner' : ℕ → Option Owner, (∀ q o, owner' q = some o → q ∈ ps'.owned) ∧
        (∀ q ∈ pages map'.base (mapPages map'), owner' q = some .table) ∧
        ∀ q o, o ≠ .table → owner q = some o → owner' q = some o := by
  induction addrs generalizing map ps owner with
  | nil =>
      exact ⟨[], [], map, ps, rfl, rfl, h, fun hpr => hpr, fun k v _ => by simp, le_refl _,
        by simp, owner, howned, htable, fun q o _ ho => ho⟩
  | cons x rest ih =>
      obtain ⟨hpage, hlt⟩ := haddr x List.mem_cons_self
      obtain ⟨hx, hrest⟩ := List.nodup_cons.mp hnodup
      rcases insert_cases hsrc h ps hpage hlt (hnew x List.mem_cons_self) slab with
        ⟨ps', hinsert, hsame, hrefused⟩ |
        ⟨map', ps', hinsert, hwf, -, hprobed, hcontains, hpages⟩
      · refine ⟨[], x :: rest, map, ps', rfl, ?_, h, fun hpr => hpr, fun k v _ => by simp,
          hrefused.le, ?_, owner, ?_, htable, fun q o _ ho => ho⟩
        · rw [insertPages, hinsert]
          rfl
        · simp only [reduceCtorEq, false_iff]
          omega
        · intro q o ho
          rw [hsame]
          exact howned q o ho
      · have hrefused : ps'.refused = ps.refused := by
          rcases hpages with ⟨-, -, rfl⟩ | hgrown
          · rfl
          · exact hgrown.refused_eq
        obtain ⟨owner', howned', htable', hkeep⟩ := exists_owner howned htable hpages
        have hnew' : ∀ y ∈ rest, ∀ v, ¬ Contains map'.entries (getPage y) v := by
          intro y hy v hv
          obtain ⟨hne, -⟩ := haddr y (List.mem_cons_of_mem x hy)
          rcases (hcontains _ v hne).mp hv with ⟨heq, -⟩ | hv
          · exact hx (heq ▸ List.mem_map_of_mem hy)
          · exact hnew y (List.mem_cons_of_mem x hy) v hv
        obtain ⟨entered, failed, map'', ps'', hsplit, hloop, hwf'', hprobed'', hcontains'',
            hle, hfailed, owner'', howned'', htable'', hkeep''⟩ :=
          ih hwf (fun y hy => haddr y (List.mem_cons_of_mem x hy)) hrest hnew' howned' htable'
        refine ⟨x :: entered, failed, map'', ps'', by rw [hsplit]; rfl, ?_, hwf'',
          fun hpr => hprobed'' (hprobed hpr), ?_, by omega, by rw [hfailed, hrefused], owner'',
          howned'', htable'', fun q o hne ho => hkeep'' q o hne (hkeep q o hne ho)⟩
        · rw [insertPages, hinsert]
          exact hloop
        · intro k v hk
          rw [hcontains'' k v hk, hcontains k v hk, List.map_cons, List.mem_cons]
          constructor
          · rintro (⟨hmem, rfl⟩ | ⟨rfl, rfl⟩ | hv)
            · exact .inl ⟨.inr hmem, rfl⟩
            · exact .inl ⟨.inl rfl, rfl⟩
            · exact .inr hv
          · rintro (⟨rfl | hmem, rfl⟩ | hv)
            · exact .inr (.inl ⟨rfl, rfl⟩)
            · exact .inl ⟨hmem, rfl⟩
            · exact .inr (.inr hv)

/-- **Deleting the entries of pages**: only these are deleted, and those that are not found stay. -/
theorem deletePages_spec (addrs : List ℕ) {map : Hashmap ℕ} (h : Wf map) :
    ∃ map', deletePages addrs map = .ok map' ∧ Wf map' ∧ map'.base = map.base ∧
      map'.totalEntries = map.totalEntries ∧
      (∀ k v, k ≠ 0 → Contains map'.entries k v → Contains map.entries k v) ∧
      ∀ k v, k ≠ 0 → k ∉ addrs.map getPage → Contains map.entries k v →
        Contains map'.entries k v := by
  induction addrs generalizing map with
  | nil => exact ⟨map, rfl, h, rfl, rfl, fun k v _ hv => hv, fun k v _ _ hv => hv⟩
  | cons x rest ih =>
      rcases find_sound h x with hnone | ⟨i, hi, hfind, hkey, hne⟩
      · obtain ⟨map', hdelete, hwf, hbase, htotal, hback, hkeep⟩ := ih h
        have hsame : delete map none = .ok map := by
          have hcap : map.totalEntries &&& (map.totalEntries - 1) = 0 := by
            rcases h.cap with h0 | hcap
            · rw [h0]
              rfl
            · rw [hcap.and_mask, Nat.mod_self]
          rw [delete, if_neg (by rw [hcap]; simp)]
        refine ⟨map', ?_, hwf, hbase, htotal, hback, fun k v hk hmem hv => hkeep k v hk ?_ hv⟩
        · rw [deletePages, hnone]
          simp only [ok_bind, hsame, hdelete]
        · exact fun hmem' => hmem (List.mem_cons_of_mem _ hmem')
      · have hkey' : keyAt map.entries i ≠ 0 := by rwa [hkey]
        obtain ⟨map₁, hdelete, hwf₁, hbase₁, htotal₁, hcontains, -⟩ := delete_cases h hi hkey'
        obtain ⟨map', hrest, hwf, hbase, htotal, hback, hkeep⟩ := ih hwf₁
        refine ⟨map', ?_, hwf, hbase.trans hbase₁, htotal.trans htotal₁, ?_, ?_⟩
        · rw [deletePages, hfind]
          simp only [ok_bind, hdelete, hrest]
        · exact fun k v hk hv => ((hcontains k v hk).mp (hback k v hk hv)).1
        · intro k v hk hmem hv
          rw [List.map_cons, List.mem_cons, not_or] at hmem
          refine hkeep k v hk hmem.2 ((hcontains k v hk).mpr ⟨hv, ?_⟩)
          rw [hkey]
          exact hmem.1

/-! ### Slabs that come and go -/

section

variable {s s' : State} {L L' : Layout}

/-- The objects in use are the same when slabs are added of which every object is free. -/
theorem allocated_congr (hcaches : s'.caches = s.caches)
    (hold : ∀ c a, L.Linked c a → L'.Linked c a ∧ (s'.slabs a).payload = (s.slabs a).payload ∧
      L'.free a = L.free a)
    (hnew : ∀ c a, L'.Linked c a → L.Linked c a ∨ ∀ i < (s.caches c).nObjects, i ∈ L'.free a)
    (c : CacheRef) (p : ℕ) : Allocated s' L' c p ↔ Allocated s L c p := by
  constructor
  · rintro ⟨a, i, ho, hi⟩
    rcases hnew c a ho.linked with ha | hfree
    · obtain ⟨-, hpayload, hfree⟩ := hold c a ha
      exact ⟨a, i, ho.congr hcaches.symm ha hpayload.symm, by rwa [← hfree]⟩
    · have hlt := ho.lt
      rw [hcaches] at hlt
      exact absurd (hfree i hlt) hi
  · rintro ⟨a, i, ho, hi⟩
    obtain ⟨ha, hpayload, hfree⟩ := hold c a ho.linked
    exact ⟨a, i, ho.congr hcaches ha hpayload, by rwa [hfree]⟩

/-- The records stay right when slabs are added of which every object is free. -/
theorem Recorded.congr (h : Recorded s L) (hcaches : s'.caches = s.caches)
    (hcarved : s'.carved = s.carved)
    (hold : ∀ c a, L.Linked c a → L'.Linked c a ∧ (s'.slabs a).payload = (s.slabs a).payload ∧
      L'.free a = L.free a)
    (hnew : ∀ c a, L'.Linked c a → L.Linked c a ∨ ∀ i < (s.caches c).nObjects, i ∈ L'.free a) :
    Recorded s' L' := by
  intro c p a i ho hi
  rcases hnew c a ho.linked with ha | hfree
  · obtain ⟨-, hpayload, hfree⟩ := hold c a ha
    rw [hcarved]
    exact h c p a i (ho.congr hcaches.symm ha hpayload.symm) (by rwa [← hfree])
  · have hlt := ho.lt
    rw [hcaches] at hlt
    exact absurd (hfree i hlt) hi

/-- A state in which the same slabs have the same objects has the same objects in use. -/
theorem Sound.same (h : Sound s L) (hinv : Inv s' L') (hcaches : s'.caches = s.caches)
    (hcarved : s'.carved = s.carved) (hlinked : ∀ c a, L'.Linked c a ↔ L.Linked c a)
    (hof : ∀ c a, L'.SlabOf c a ↔ L.SlabOf c a) (hknown : ∀ c, L'.caches c ↔ L.caches c)
    (hsame : ∀ c a, L.Linked c a →
      (s'.slabs a).payload = (s.slabs a).payload ∧ L'.free a = L.free a) :
    Sound s' L' ∧ liveObjects s' L' = liveObjects s L := by
  have hold : ∀ c a, L.Linked c a → L'.Linked c a ∧ (s'.slabs a).payload = (s.slabs a).payload ∧
      L'.free a = L.free a := fun c a ha => ⟨(hlinked c a).mpr ha, hsame c a ha⟩
  have hnew : ∀ c a, L'.Linked c a →
      L.Linked c a ∨ ∀ i < (s.caches c).nObjects, i ∈ L'.free a :=
    fun c a ha => .inl ((hlinked c a).mp ha)
  refine ⟨⟨hinv, h.recorded.congr hcaches hcarved hold hnew⟩, ?_⟩
  have hhidden : ∀ c p, Hidden s' L' c p ↔ Hidden s L c p := fun c p =>
    ⟨fun hp => hp.congr hcaches (fun c a ha => (hof c a).mp ha) fun c hc => (hknown c).mp hc,
      fun hp => hp.congr hcaches.symm (fun c a ha => (hof c a).mpr ha)
        fun c hc => (hknown c).mpr hc⟩
  ext ⟨c, p⟩
  rw [mem_liveObjects, mem_liveObjects, allocated_congr hcaches hold hnew, hhidden]

/-- **Another map**, whose entries are of slabs and whose array is its own. -/
theorem Inv.remap (h : Inv s L) {map : Hashmap ℕ} {ps : Pages} {owner : ℕ → Option Owner}
    (hwf : Wf map) (howned : ∀ q o, owner q = some o → q ∈ ps.owned)
    (htable : ∀ q ∈ pages map.base (mapPages map), owner q = some .table)
    (hkeep : ∀ q o, o ≠ .table → L.owner q = some o → owner q = some o)
    (hkeys : ∀ k v, k ≠ 0 → Contains map.entries k v →
      ∃ c, L.SlabOf c v ∧ k ∈ pages (s.base v) (s.caches c).nPages)
    (hregistered : ∀ c a, L.Linked c a → ∀ q ∈ pages (s.base a) (s.caches c).nPages,
      Contains map.entries q a) :
    Inv { s with hashmap := map, pages := ps } { L with owner := owner } where
  map := hwf
  owned := howned
  table := htable
  keys := hkeys
  registered := hregistered
  static := h.static
  cacheCache := h.cacheCache
  wf := h.wf
  order := h.order
  nCaches := h.nCaches
  rings := h.rings
  apart := h.apart
  placed := by
    intro c a ha
    exact (h.placed c a ha).congr rfl rfl id fun q hq => hkeep q _ (by simp) hq
  slabs := h.slabs
  hidden := by
    intro c p hp
    have hold : Hidden s L c p := hp.congr rfl (fun _ _ ha => ha) fun _ hc => hc
    obtain ⟨a, i, ho, hi⟩ := h.hidden c p hold
    exact ⟨a, i, ho.congr rfl ho.linked rfl, hi⟩

end

/-- The pages of a slab are where `growCache` enters them. -/
structure Range (cache : Cache) (payload : ℕ) (owned : List ℕ) : Prop where
  base_ne : getPage payload ≠ 0
  payload_eq : payload = getPage payload + cache.offset
  fits : getPage payload + cache.nPages * pageSize ≤ 2 ^ 64
  fresh : ∀ q ∈ pages (getPage payload) cache.nPages, q ∉ owned

/-- A layout with a new loose slab, all of whose objects are free. -/
def Layout.loosen (L : Layout) (c : CacheRef) (a nObjects : ℕ) (range : List ℕ) : Layout :=
  { L with
    loose := fun c' b => c' = c ∧ b = a ∨ L.loose c' b
    free := Function.update L.free a (List.range nObjects)
    owner := fun q => if q ∈ range then some (.slab c a) else L.owner q }

section

variable {s : State} {L : Layout} {c : CacheRef} {a : ℕ}

/-- A slab on a range of pages of its own is placed there, once these pages belong to it. -/
theorem Range.placed {s' : State} {L' : Layout} {slab : Slab} {owned : List ℕ}
    (h : Range (s.caches c) slab.payload owned) (hc : L'.caches c) (hslab : s'.slabs a = slab)
    (hcache : s'.caches c = s.caches c)
    (howner : ∀ q ∈ pages (getPage slab.payload) (s.caches c).nPages,
      L'.owner q = some (.slab c a))
    (honslab : (s.caches c).offslab = false → a = getPage slab.payload) : Placed s' L' c a := by
  have hbase : s'.base a = getPage slab.payload := by rw [State.base, hslab]
  refine ⟨hc, ?_, ?_, ?_, ?_, ?_⟩
  · rw [hbase]
    exact h.base_ne
  · rw [hbase, hslab, hcache]
    exact h.payload_eq
  · rw [hbase, hcache]
    exact h.fits
  · rw [hbase, hcache]
    exact howner
  · rw [hbase, hcache]
    exact honslab

/-- **A new slab that is loose**, on pages that were just taken, keeps the invariant with its
pages owned. -/
theorem Inv.loosen (h : Inv s L) (hc : L.caches c) {slab : Slab} {ps : Pages}
    (hnot : ∀ c', ¬ L.SlabOf c' a) (hrange : Range (s.caches c) slab.payload s.pages.owned)
    (hps : ps.owned = s.pages.owned ++ pages (getPage slab.payload) (s.caches c).nPages)
    (honslab : (s.caches c).offslab = false → a = getPage slab.payload)
    (hheader : (s.caches c).offslab = true →
      Allocated s L (.kmalloc (s.caches c).headerCache) a) :
    Inv ({ s with pages := ps }.setSlab a slab)
      (L.loosen c a (s.caches c).nObjects (pages (getPage slab.payload) (s.caches c).nPages)) := by
  set s' : State := { s with pages := ps }.setSlab a slab with hs'
  set range := pages (getPage slab.payload) (s.caches c).nPages with hrange'
  have hself : s'.slabs a = slab := by simp [hs', State.setSlab]
  have hother : ∀ b, b ≠ a → s'.slabs b = s.slabs b := fun b hb => by
    simp [hs', State.setSlab, hb]
  have hne : ∀ c' b, L.SlabOf c' b → b ≠ a := by
    rintro c' b hb rfl
    exact hnot c' hb
  have hbase : ∀ b, b ≠ a → s'.base b = s.base b := fun b hb => by
    rw [State.base, hother b hb, State.base]
  have hunowned : ∀ q o, L.owner q = some o → q ∉ range := fun q o ho hq =>
    hrange.fresh q hq (h.owned q o ho)
  have hfree : ∀ b, b ≠ a → (L.loosen c a (s.caches c).nObjects range).free b = L.free b :=
    fun b hb => Function.update_of_ne hb _ _
  have hallocated : ∀ c' p, Allocated s L c' p →
      Allocated s' (L.loosen c a (s.caches c).nObjects range) c' p := by
    rintro c' p ⟨b, i, ho, hi⟩
    have hb := hne c' b (.inl ho.linked)
    exact ⟨b, i, ho.congr rfl ho.linked (by rw [hother b hb]), by rwa [hfree b hb]⟩
  refine
    { map := h.map
      owned := fun q o ho => ?_
      table := fun q hq => ?_
      keys := fun k v hk hkv => ?_
      registered := fun c' b hb q hq => ?_
      static := h.static
      cacheCache := h.cacheCache
      wf := h.wf
      order := h.order
      nCaches := h.nCaches
      rings := h.rings
      apart := fun c' b hb hloose => ?_
      placed := fun c' b hb => ?_
      slabs := fun c' l b hb => ?_
      hidden := fun c' p hp => ?_ }
  · have hmem : q ∈ s.pages.owned ++ range := by
      by_cases hq : q ∈ range
      · exact List.mem_append_right _ hq
      · simp only [Layout.loosen, if_neg hq] at ho
        exact List.mem_append_left _ (h.owned q o ho)
    exact hps ▸ hmem
  · have howner := h.table q hq
    simp only [Layout.loosen, if_neg (hunowned q _ howner), howner]
  · obtain ⟨c', hv, hmem⟩ := h.keys k v hk hkv
    refine ⟨c', hv.imp id fun hl => .inr hl, ?_⟩
    rw [hbase v (hne c' v hv)]
    exact hmem
  · rw [hbase b (hne c' b (.inl hb))] at hq
    exact h.registered c' b hb q hq
  · rcases hloose with ⟨rfl, rfl⟩ | hloose
    · exact hnot c' (.inl hb)
    · exact h.apart c' b hb hloose
  · by_cases hb' : c' = c ∧ b = a
    · obtain ⟨rfl, rfl⟩ := hb'
      exact hrange.placed hc hself rfl (fun q hq => if_pos hq) honslab
    · have hold : L.SlabOf c' b := hb.imp id fun hl => hl.resolve_left hb'
      refine (h.placed c' b hold).congr rfl (by rw [hother b (hne c' b hold)]) id fun q howner => ?_
      simp only [Layout.loosen, if_neg (hunowned q _ howner), howner]
  · have hb' := hne c' b (.inl ⟨l, hb⟩)
    rw [hother b hb', hfree b hb']
    exact h.slabs c' l b hb
  · cases hp with
    | header hb hoff =>
        rename_i c''
        by_cases hb' : c'' = c ∧ p = a
        · obtain ⟨rfl, rfl⟩ := hb'
          exact hallocated _ _ (hheader hoff)
        · exact hallocated _ _ (h.hidden _ _
            (.header (hb.imp id fun hl => hl.resolve_left hb') hoff))
    | cache hp => exact hallocated _ _ (h.hidden _ _ (.cache hp))

/-- A new slab takes an object for its header out of the objects that others use. -/
theorem Sound.loosen (h : Sound s L) (hc : L.caches c) {slab : Slab} {ps : Pages}
    (hnot : ∀ c', ¬ L.SlabOf c' a) (hrange : Range (s.caches c) slab.payload s.pages.owned)
    (hps : ps.owned = s.pages.owned ++ pages (getPage slab.payload) (s.caches c).nPages)
    (hrefused : ps.refused = s.pages.refused)
    (honslab : (s.caches c).offslab = false → a = getPage slab.payload)
    (hheader : (s.caches c).offslab = true →
      Allocated s L (.kmalloc (s.caches c).headerCache) a) :
    Step s ({ s with pages := ps }.setSlab a slab) L
      (L.loosen c a (s.caches c).nObjects (pages (getPage slab.payload) (s.caches c).nPages))
      {x | x ∈ liveObjects s L ∧ ¬ ((s.caches c).offslab = true ∧
        x = (.kmalloc (s.caches c).headerCache, a))} := by
  set s' : State := { s with pages := ps }.setSlab a slab with hs'
  set L' := L.loosen c a (s.caches c).nObjects
    (pages (getPage slab.payload) (s.caches c).nPages) with hL'
  have hcaches : s'.caches = s.caches := rfl
  have hold : ∀ c' b, L.Linked c' b → L'.Linked c' b ∧
      (s'.slabs b).payload = (s.slabs b).payload ∧ L'.free b = L.free b := by
    intro c' b hb
    have hne : b ≠ a := by
      rintro rfl
      exact hnot c' (.inl hb)
    exact ⟨hb, by simp [hs', State.setSlab, hne], Function.update_of_ne hne _ _⟩
  have hnew : ∀ c' b, L'.Linked c' b → L.Linked c' b ∨
      ∀ i < (s.caches c').nObjects, i ∈ L'.free b := fun c' b hb => .inl hb
  refine ⟨⟨h.inv.loosen hc hnot hrange hps honslab hheader,
    h.recorded.congr hcaches rfl hold hnew⟩, rfl, rfl, ?_, hrefused.ge, fun _ hprobed => hprobed⟩
  ext ⟨c', p⟩
  have hhidden : Hidden s' L' c' p ↔ Hidden s L c' p ∨ (s.caches c).offslab = true ∧
      (c', p) = (.kmalloc (s.caches c).headerCache, a) := by
    constructor
    · intro hp
      cases hp with
      | header hb hoff =>
          rename_i c''
          by_cases hsame : c'' = c ∧ p = a
          · obtain ⟨rfl, rfl⟩ := hsame
            exact .inr ⟨hoff, rfl⟩
          · exact .inl (.header (hb.imp id fun hl => hl.resolve_left hsame) hoff)
      | cache hp => exact .inl (.cache hp)
    · rintro (hp | ⟨hoff, heq⟩)
      · exact hp.congr rfl (fun _ _ hb => hb.imp id .inr) fun _ hc' => hc'
      · obtain ⟨rfl, rfl⟩ := Prod.mk.inj heq
        exact .header (c := c) (.inr (.inl ⟨rfl, rfl⟩)) hoff
  have hallocated : Allocated s' L' c' p ↔ Allocated s L c' p :=
    allocated_congr hcaches hold hnew c' p
  constructor
  · rintro ⟨hp, hnot'⟩
    rw [hhidden, not_or] at hnot'
    exact ⟨⟨hallocated.mp hp, hnot'.1⟩, hnot'.2⟩
  · rintro ⟨⟨hp, hnot'⟩, hne⟩
    exact ⟨hallocated.mpr hp, fun hp' => (hhidden.mp hp').elim hnot' hne⟩

/-- A layout in which a loose slab is put into the list of the empty slabs. -/
def Layout.link (L : Layout) (c : CacheRef) (a : ℕ) : Layout :=
  { L with
    lists := Function.update L.lists c
      (Function.update (L.lists c) .emptySlabs (a :: L.lists c .emptySlabs))
    loose := fun c' b => ¬ (c' = c ∧ b = a) ∧ L.loose c' b }

/-- The new slab is in the list of the empty slabs, and the others are where they were. -/
theorem mem_lists_link {c' : CacheRef} {l : SlabList} {b : ℕ} :
    b ∈ (L.link c a).lists c' l ↔ (b = a ∧ c' = c ∧ l = .emptySlabs) ∨ b ∈ L.lists c' l := by
  by_cases hc : c' = c
  · subst hc
    by_cases hl : l = .emptySlabs
    · subst hl
      simp [Layout.link]
    · simp [Layout.link, hl]
  · simp [Layout.link, hc]

/-- The slabs in lists are those that were there and the new one. -/
theorem link_linked {c' : CacheRef} {b : ℕ} :
    (L.link c a).Linked c' b ↔ L.Linked c' b ∨ c' = c ∧ b = a := by
  simp only [Layout.Linked, mem_lists_link]
  constructor
  · rintro ⟨l, ⟨rfl, rfl, -⟩ | hb⟩
    · exact .inr ⟨rfl, rfl⟩
    · exact .inl ⟨l, hb⟩
  · rintro (⟨l, hb⟩ | ⟨rfl, rfl⟩)
    · exact ⟨l, .inr hb⟩
    · exact ⟨.emptySlabs, .inl ⟨rfl, rfl, rfl⟩⟩

/-- A loose slab that is put into a list is a slab of its cache before and after. -/
theorem slabOf_link (hloose : L.loose c a) {c' : CacheRef} {b : ℕ} :
    (L.link c a).SlabOf c' b ↔ L.SlabOf c' b := by
  rw [Layout.SlabOf, Layout.SlabOf, link_linked]
  simp only [Layout.link]
  constructor
  · rintro ((hb | ⟨rfl, rfl⟩) | ⟨-, hb⟩)
    · exact .inl hb
    · exact .inr hloose
    · exact .inr hb
  · by_cases hb : c' = c ∧ b = a
    · exact fun _ => .inl (.inr hb)
    · rintro (hb' | hb')
      · exact .inl (.inl hb')
      · exact .inr ⟨hb, hb'⟩

/-- Linking a loose slab in puts it in front of the empty slabs of its cache, and changes no
other list. -/
theorem nodes_link : (L.link c a).nodes = Function.update L.nodes (.slabs c .emptySlabs)
    (.slab a :: L.nodes (.slabs c .emptySlabs)) := by
  funext x
  cases x with
  | caches => simp [Layout.nodes, Layout.link]
  | cache c' => simp [Layout.nodes]
  | slab b => simp [Layout.nodes]
  | slabs c' l =>
      by_cases hc : c' = c
      · subst hc
        by_cases hl : l = .emptySlabs
        · subst hl
          simp [Layout.nodes, Layout.link]
        · simp [Layout.nodes, Layout.link, hl]
      · simp [Layout.nodes, Layout.link, hc]

/-- A loose slab is in no list of slabs of any cache. -/
theorem Inv.not_listed (h : Inv s L) (hloose : L.loose c a) (c' : CacheRef) (l : SlabList) :
    a ∉ L.lists c' l := by
  intro ha
  obtain rfl := h.slab_unique (.inl ⟨l, ha⟩) (.inr hloose)
  exact h.apart c' a ⟨l, ha⟩ hloose

/-- The node of a loose slab is in no ring, neither as its head nor as an element. -/
theorem Inv.not_node (h : Inv s L) (hloose : L.loose c a) {x : Node} (hx : L.heads x) :
    Node.slab a ∉ x :: L.nodes x := by
  intro hmem
  cases x with
  | caches => simp [Layout.nodes] at hmem
  | cache c' => exact hx
  | slab b => exact hx
  | slabs c' l =>
      rcases List.mem_cons.mp hmem with heq | hmem
      · cases heq
      · exact h.not_listed hloose c' l (slab_mem_nodes.mp hmem)

section Link

variable {s' : State} (hcaches : s'.caches = s.caches)
  (hpay : ∀ b, (s'.slabs b).payload = (s.slabs b).payload)

include hpay in
/-- The slabs that were in lists are there with the same objects. -/
theorem link_old (c' : CacheRef) (b : ℕ) (hb : L.Linked c' b) :
    (L.link c a).Linked c' b ∧ (s'.slabs b).payload = (s.slabs b).payload ∧
      (L.link c a).free b = L.free b :=
  ⟨link_linked.mpr (.inl hb), hpay b, rfl⟩

/-- A slab in a list was there before, or it is the new one, which is free. -/
theorem link_new (hall : ∀ i < (s.caches c).nObjects, i ∈ L.free a) (c' : CacheRef) (b : ℕ)
    (hb : (L.link c a).Linked c' b) :
    L.Linked c' b ∨ ∀ i < (s.caches c').nObjects, i ∈ (L.link c a).free b := by
  rcases link_linked.mp hb with hb | ⟨rfl, rfl⟩
  · exact .inl hb
  · exact .inr hall

include hcaches hpay in
/-- A free slab that is put into a list has no object in use. -/
theorem allocated_link (hall : ∀ i < (s.caches c).nObjects, i ∈ L.free a) (c' : CacheRef) (p : ℕ) :
    Allocated s' (L.link c a) c' p ↔ Allocated s L c' p :=
  allocated_congr hcaches (link_old hpay) (link_new hall) c' p

include hcaches in
/-- The objects that the allocator uses itself are those of before. -/
theorem hidden_link (hloose : L.loose c a) (c' : CacheRef) (p : ℕ) :
    Hidden s' (L.link c a) c' p ↔ Hidden s L c' p :=
  ⟨fun hp => hp.congr hcaches (fun _ _ hb => (slabOf_link hloose).mp hb) fun _ hc => hc,
    fun hp => hp.congr hcaches.symm (fun _ _ hb => (slabOf_link hloose).mpr hb) fun _ hc => hc⟩

end Link

/-- Setting the owner of a slab keeps the payloads of all slabs. -/
theorem payload_setOwner (links : Links Node) (b : ℕ) :
    (({ s with links := links }.setSlab a { s.slabs a with owner := some c }).slabs b).payload =
      (s.slabs b).payload := by
  by_cases hb : b = a
  · subst hb
    simp [State.setSlab]
  · simp [State.setSlab, hb]

/-- **The invariant holds with the new slab in the list** of the empty slabs. -/
theorem Inv.link (h : Inv s L) (hloose : L.loose c a)
    (hslab : SlabWf (s.caches c) c .emptySlabs { s.slabs a with owner := some c } (L.free a))
    (hall : ∀ i < (s.caches c).nObjects, i ∈ L.free a)
    (hregistered : ∀ q ∈ pages (s.base a) (s.caches c).nPages, Contains s.hashmap.entries q a)
    {links : Links Node} (hrings : Rings links L.heads (L.link c a).nodes) :
    Inv ({ s with links := links }.setSlab a { s.slabs a with owner := some c }) (L.link c a) := by
  set s' : State := { s with links := links }.setSlab a { s.slabs a with owner := some c } with hs'
  have hcaches : s'.caches = s.caches := rfl
  have hpay : ∀ b, (s'.slabs b).payload = (s.slabs b).payload := payload_setOwner links
  have hbase : ∀ b, s'.base b = s.base b := fun b => by rw [State.base, hpay, State.base]
  refine
    { map := h.map
      owned := h.owned
      table := h.table
      keys := fun k v hk hkv => ?_
      registered := fun c' b hb q hq => ?_
      static := h.static
      cacheCache := h.cacheCache
      wf := h.wf
      order := h.order
      nCaches := h.nCaches
      rings := hrings
      apart := fun c' b hb hl => ?_
      placed := fun c' b hb => ?_
      slabs := fun c' l b hb => ?_
      hidden := fun c' p hp => ?_ }
  · obtain ⟨c', hv, hmem⟩ := h.keys k v hk hkv
    exact ⟨c', (slabOf_link hloose).mpr hv, by rw [hbase]; exact hmem⟩
  · rw [hbase] at hq
    rcases link_linked.mp hb with hb | ⟨rfl, rfl⟩
    · exact h.registered c' b hb q hq
    · exact hregistered q hq
  · rcases link_linked.mp hb with hb | hsame
    · exact h.apart c' b hb hl.2
    · exact hl.1 hsame
  · exact (h.placed c' b ((slabOf_link hloose).mp hb)).congr rfl (hpay b) id fun _ hq => hq
  · rcases mem_lists_link.mp hb with ⟨rfl, rfl, rfl⟩ | hb
    · have hheader : s'.slabs b = { s.slabs b with owner := some c' } := by
        simp [hs', State.setSlab]
      rw [hheader]
      exact hslab
    · have hne : b ≠ a := fun hba => h.not_listed hloose c' l (hba ▸ hb)
      have hheader : s'.slabs b = s.slabs b := by simp [hs', State.setSlab, hne]
      rw [hheader]
      exact h.slabs c' l b hb
  · exact (allocated_link hcaches hpay hall c' p).mpr
      (h.hidden c' p ((hidden_link hcaches hloose c' p).mp hp))

/-- **A loose slab is put into the list of the empty slabs.** -/
theorem Sound.link (h : Sound s L) (hloose : L.loose c a)
    (hslab : SlabWf (s.caches c) c .emptySlabs { s.slabs a with owner := some c } (L.free a))
    (hall : ∀ i < (s.caches c).nObjects, i ∈ L.free a)
    (hregistered : ∀ q ∈ pages (s.base a) (s.caches c).nPages, Contains s.hashmap.entries q a) :
    ∃ links, pushFront s.links (.slabs c .emptySlabs) (.slab a) = .ok links ∧
      Step s ({ s with links := links }.setSlab a { s.slabs a with owner := some c }) L
        (L.link c a) (liveObjects s L) := by
  have hhead : L.heads (.slabs c .emptySlabs) := (h.inv.placed c a (.inr hloose)).cache
  obtain ⟨links, hpush, hrings⟩ :=
    h.inv.rings.push hhead fun x hx => h.inv.not_node hloose hx
  rw [← nodes_link] at hrings
  have hinv := h.inv.link hloose hslab hall hregistered hrings
  set s' : State := { s with links := links }.setSlab a { s.slabs a with owner := some c }
  have hcaches : s'.caches = s.caches := rfl
  have hpay : ∀ b, (s'.slabs b).payload = (s.slabs b).payload := payload_setOwner links
  refine ⟨links, hpush, ⟨⟨hinv, ?_⟩, rfl, rfl, ?_, le_refl _, fun _ hprobed => hprobed⟩⟩
  · exact h.recorded.congr hcaches rfl (link_old hpay) (link_new hall)
  · ext ⟨c', p⟩
    rw [mem_liveObjects, mem_liveObjects, allocated_link hcaches hpay hall,
      hidden_link hcaches hloose]

/-! ### Allocating a slab -/

/-- `kmalloc` has a cache for the size of the objects of each of its caches. -/
theorem getKmallocCache_objSize :
    ∀ i < kmallocNCaches, getKmallocCache (kmallocMinCacheSize * 2 ^ i) = i := by
  decide

/-- **`kfree`** of an object of `kmalloc` succeeds, and takes just this object out of those in
use. -/
theorem kfree_spec (h : Sound s L) (hprobed : s.Probed) {i p : ℕ} (hi : i < kmallocNCaches)
    (hp : (CacheRef.kmalloc i, p) ∈ liveObjects s L) :
    ∃ s' L', kfree s p = .ok s' ∧
      Step s s' L L' (liveObjects s L \ {(.kmalloc i, p)}) := by
  obtain ⟨⟨a, j, ho, hj⟩, -⟩ := mem_liveObjects.mp hp
  obtain ⟨list, ha⟩ := ho.linked
  have howner := (h.inv.slabs _ list a ha).owner
  have hcarved := h.recorded _ p a j ho hj
  obtain ⟨e, hfind, hvalue⟩ := h.inv.find_object_probed ho hprobed
  have hsize : (s.caches (.kmalloc i)).objSize = kmallocMinCacheSize * 2 ^ i := by
    rw [(h.inv.static i hi).2, objSize_kmalloc hi]
  have howned : ownerObjSize s (s.slabs a) = .ok (kmallocMinCacheSize * 2 ^ i) := by
    rw [ownerObjSize, howner, ← hsize]
  obtain ⟨s', L', hfree, hstep⟩ := freeCacheInSlab_spec h hp
  refine ⟨s', L', ?_, hstep⟩
  rw [hcarved] at hfree
  rw [kfree, if_neg (h.inv.object_ne_zero ho), hfind]
  simp only [ok_bind, hvalue, howned, getKmallocCache_objSize i hi, howner, ne_eq,
    not_true_eq_false, if_false, hfree]

/-- Pages that are not for the map are not counted when they are refused. -/
theorem allocatePages_refused (src : PageSource) (p : Pages) (n : ℕ) :
    (p.allocatePages src n false).2.refused = p.refused := by
  unfold Pages.allocatePages
  by_cases hn : n = 0
  · rw [if_pos hn]
  · rw [if_neg hn]
    by_cases haddr : src p.requests p.owned n false = 0
    · simp [haddr]
    · simp [haddr]

/-- A change of the count of the requests, with the same pages in use, changes nothing else. -/
theorem Sound.withPages (h : Sound s L) {ps : Pages} (howned : ps.owned = s.pages.owned)
    (hrefused : ps.refused = s.pages.refused) :
    Step s { s with pages := ps } L L (liveObjects s L) := by
  have hinv : Inv { s with pages := ps } L := h.inv.remap h.inv.map
    (fun q o ho => by rw [howned]; exact h.inv.owned q o ho) h.inv.table (fun _ _ _ ho => ho)
    h.inv.keys h.inv.registered
  obtain ⟨hsound, hlive⟩ := h.same hinv rfl rfl (fun _ _ => Iff.rfl) (fun _ _ => Iff.rfl)
    (fun _ => Iff.rfl) fun _ _ _ => ⟨rfl, rfl⟩
  exact ⟨hsound, rfl, rfl, hlive, hrefused.ge, fun _ hprobed => hprobed⟩

/-- **A new slab** that is in no list and has no entry in the map. -/
structure NewSlab (s s' : State) (L L' : Layout) (c : CacheRef) (a : ℕ) : Prop where
  step : Step s s' L L' (liveObjects s L)
  refused_eq : s'.pages.refused = s.pages.refused
  ne_zero : a ≠ 0
  loose : L'.loose c a
  free_eq : L'.free a = List.range (s.caches c).nObjects
  wf : SlabWf (s.caches c) c .emptySlabs { s'.slabs a with owner := some c } (L'.free a)
  absent : ∀ q ∈ pages (s'.base a) (s.caches c).nPages, ∀ v,
    ¬ Contains s'.hashmap.entries q v

/-- The header that `allocateSlab` writes is that of an empty slab, once its owner is
entered. -/
theorem slabWf_newSlab {cache : Cache} (hwf : cache.Wf) (c : CacheRef) (old : Slab)
    (payload : ℕ) : SlabWf cache c .emptySlabs
      { newSlab old payload cache.nObjects with owner := some c } (List.range cache.nObjects) where
  owner := rfl
  chain := @chain_newSlab old payload cache.nObjects (by have := hwf.two_le; omega)
  nodup := List.nodup_range
  lt := fun i hi => List.mem_range.mp hi
  count := by simp [newSlab]
  kind := by
    have htwo := hwf.two_le
    have hne : List.range cache.nObjects ≠ [] := by
      rw [ne_eq, List.range_eq_nil]
      omega
    rw [kindOf, if_neg hne, if_pos List.length_range]

/-- A page that is not in use is not a key of the map from pages to slabs. -/
theorem Inv.not_contains (h : Inv s L) {q : ℕ} (hq : q ∉ s.pages.owned) (hne : q ≠ 0) (v : ℕ) :
    ¬ Contains s.hashmap.entries q v := by
  intro hv
  obtain ⟨c', hslab, hmem⟩ := h.keys q v hne hv
  exact hq (h.owned q _ ((h.placed c' v hslab).holds q hmem))

/-- An address on a page that is not in use is not that of a slab. -/
theorem Inv.not_slabOf (h : Inv s L) (ha : getPage a ∉ s.pages.owned) (c' : CacheRef) :
    ¬ L.SlabOf c' a := by
  intro hslab
  have hplaced := h.placed c' a hslab
  cases hoff : (s.caches c').offslab with
  | true =>
      obtain ⟨b, i, ho, -⟩ := h.hidden _ _ (.header hslab hoff)
      exact ha (h.owned _ _ ((h.placed _ b (.inl ho.linked)).holds _ (h.object_page ho)))
  | false =>
      have hbase := hplaced.onslab hoff
      have hself : getPage a = s.base a := by
        have hal := base_aligned s a
        rw [← hbase] at hal ⊢
        simp only [getPage, pageSize] at *
        omega
      rw [hself] at ha
      exact ha (h.owned _ _ (hplaced.holds _ (h.base_mem hslab)))

/-- The pages that the source answers with, as those of a slab. -/
theorem range_of_fresh {cache : Cache} (hwf : cache.Wf) {owned : List ℕ} {addr payload : ℕ}
    (hfresh : Fresh owned addr cache.nPages) (hpayload : payload = addr + cache.offset) :
    getPage payload = addr ∧ Range cache payload owned := by
  have hoffset := hwf.offset_lt
  have haligned := hfresh.aligned
  have hpage : getPage payload = addr := by
    rw [hpayload]
    simp only [getPage, pageSize] at *
    omega
  refine ⟨hpage, ?_, ?_, ?_, ?_⟩
  · rw [hpage]
    exact hfresh.ne_zero
  · rw [hpage]
    exact hpayload
  · rw [hpage]
    exact hfresh.fits
  · rw [hpage]
    exact hfresh.unused

/-- A new slab on pages that were not in use keeps everything sound, with no new object in
use. -/
theorem Sound.newSlab (h : Sound s L) (hc : L.caches c) {payload addr : ℕ} {ps : Pages}
    (hnot : ∀ c', ¬ L.SlabOf c' a) (hfresh : Fresh s.pages.owned addr (s.caches c).nPages)
    (hpayload : payload = addr + (s.caches c).offset)
    (hps : ps.owned = s.pages.owned ++ pages addr (s.caches c).nPages)
    (hrefused : ps.refused = s.pages.refused)
    (honslab : (s.caches c).offslab = false → a = addr)
    (hheader : (s.caches c).offslab = true →
      Allocated s L (.kmalloc (s.caches c).headerCache) a) :
    ∃ s' L', s' = { s with pages := ps }.setSlab a
        (SlabAllocator.newSlab (s.slabs a) payload (s.caches c).nObjects) ∧
      Step s s' L L' {x | x ∈ liveObjects s L ∧ ¬ ((s.caches c).offslab = true ∧
        x = (.kmalloc (s.caches c).headerCache, a))} ∧
      L'.loose c a ∧ L'.free a = List.range (s.caches c).nObjects ∧
      SlabWf (s.caches c) c .emptySlabs { s'.slabs a with owner := some c } (L'.free a) ∧
      ∀ q ∈ pages (s'.base a) (s.caches c).nPages, ∀ v, ¬ Contains s'.hashmap.entries q v := by
  have hwf := h.inv.wf c hc
  obtain ⟨hpage, hrange⟩ := range_of_fresh hwf hfresh hpayload
  have hheader' : ({ s with pages := ps }.setSlab a (SlabAllocator.newSlab (s.slabs a) payload
      (s.caches c).nObjects) : State).slabs a = SlabAllocator.newSlab (s.slabs a) payload
      (s.caches c).nObjects := by
    simp [State.setSlab]
  have hfree : (L.loosen c a (s.caches c).nObjects
      (pages (getPage payload) (s.caches c).nPages)).free a = List.range (s.caches c).nObjects :=
    Function.update_self _ _ _
  refine ⟨_, _, rfl, h.loosen hc hnot hrange (by rw [hps, ← hpage]; rfl) hrefused
    (fun hoff => (honslab hoff).trans hpage.symm) hheader, .inl ⟨rfl, rfl⟩, hfree, ?_, ?_⟩
  · rw [hheader']
    exact hfree ▸ slabWf_newSlab hwf c (s.slabs a) payload
  · intro q hq v
    rw [State.base, hheader'] at hq
    have hpage' :
        getPage (SlabAllocator.newSlab (s.slabs a) payload (s.caches c).nObjects).payload =
        addr := hpage
    rw [hpage'] at hq
    refine h.inv.not_contains (hfresh.unused q hq) ?_ v
    obtain ⟨k, -, rfl⟩ := mem_pages.mp hq
    have hne' := hfresh.ne_zero
    omega

/-- **What an allocation does**: it takes an object, or nothing. -/
def Served (s s' : State) (L L' : Layout) (c : CacheRef) (p : ℕ) : Prop :=
  p = 0 ∧ Idle s s' L L' ∨ Taken s s' L L' c p ∧ s'.pages.refused = s.pages.refused

/-- A request for the pages of a slab is refused, with nothing changed, or granted with fresh
pages. -/
theorem slabPages_cases {src : PageSource} (hsrc : src.Sound) (p : Pages) (n : ℕ) :
    (∃ ps, p.allocatePages src n false = (0, ps) ∧ ps.owned = p.owned ∧ ps.refused = p.refused) ∨
    ∃ addr ps, Fresh p.owned addr n ∧ p.allocatePages src n false = (addr, ps) ∧
      ps.owned = p.owned ++ pages addr n ∧ ps.refused = p.refused := by
  have hrefused := allocatePages_refused src p n
  rcases Pages.allocatePages_cases hsrc p n false with ⟨t, r, heq, -⟩ | ⟨addr, t, hfresh, -, heq⟩
  · rw [heq] at hrefused
    exact .inl ⟨_, heq, rfl, hrefused⟩
  · exact .inr ⟨addr, _, hfresh, heq, rfl, rfl⟩

/-- **A slab with its header** on its pages is allocated at their beginning, or refused with
nothing changed. -/
theorem allocateSlab_onslab {src : PageSource} (hsrc : src.Sound)
    (kmalloc : State → ℕ → Except Fault (ℕ × State)) (h : Sound s L) (hc : L.caches c)
    (hoff : (s.caches c).offslab = false) :
    ∃ a s' L', allocateSlab src kmalloc s (s.caches c).nPages (s.caches c).nObjects false =
      .ok (a, s') ∧ (a = 0 ∧ Idle s s' L L' ∨ NewSlab s s' L L' c a) := by
  have hwf := h.inv.wf c hc
  rw [allocateSlab, if_neg (by simp)]
  rcases slabPages_cases hsrc s.pages (s.caches c).nPages with
    ⟨ps, hrequest, howned, hrefused⟩ | ⟨addr, ps, hfresh, hrequest, howned, hrefused⟩
  · refine ⟨0, _, L, ?_, .inl ⟨rfl, h.withPages howned hrefused⟩⟩
    simp only [hrequest, if_true]
  · have hpayload : align (wadd addr (sizeofSlab + getSlabFreelistSize (s.caches c).nObjects)) =
        addr + (s.caches c).offset := Cache.payloadOf_eq hwf hoff hfresh.aligned hfresh.fits
    have hunused : getPage addr ∉ s.pages.owned := by
      have hself : getPage addr = addr := by
        have haligned := hfresh.aligned
        simp only [getPage, pageSize] at *
        omega
      rw [hself]
      exact hfresh.unused addr (mem_pages.mpr ⟨0, hwf.nPages_pos, by simp⟩)
    have hon : (s.caches c).offslab = true →
        Allocated s L (.kmalloc (s.caches c).headerCache) addr :=
      fun hon => by rw [hoff] at hon; cases hon
    obtain ⟨s', L', rfl, hstep, hloose, hfree, hslab, habsent⟩ := h.newSlab hc
      (h.inv.not_slabOf hunused) hfresh hpayload howned hrefused (fun _ => rfl) hon
    refine ⟨addr, _, L', ?_, .inr ⟨?_, hrefused, hfresh.ne_zero, hloose, hfree, hslab, habsent⟩⟩
    · simp only [hrequest, if_neg hfresh.ne_zero, hpayload]
    · have hlive : {x | x ∈ liveObjects s L ∧ ¬ ((s.caches c).offslab = true ∧
          x = (.kmalloc (s.caches c).headerCache, addr))} = liveObjects s L := by
        ext x
        exact ⟨fun hx => hx.1, fun hx => ⟨hx, fun hx' => by rw [hoff] at hx'; cases hx'.1⟩⟩
      rwa [hlive] at hstep

/-- **A slab whose header is an object of `kmalloc`.** -/
theorem allocateSlab_offslab {src : PageSource} (hsrc : src.Sound)
    {kmalloc : State → ℕ → Except Fault (ℕ × State)} (hprobed : s.Probed)
    (hc : L.caches c) (hoff : (s.caches c).offslab = true)
    (hindex : (s.caches c).headerCache < kmallocNCaches) {p : ℕ} {s₁ : State} {L₁ : Layout}
    (hkmalloc : kmalloc s (s.caches c).headerSize = .ok (p, s₁))
    (hserved : Served s s₁ L L₁ (.kmalloc (s.caches c).headerCache) p) :
    ∃ a s' L', allocateSlab src kmalloc s (s.caches c).nPages (s.caches c).nObjects true =
      .ok (a, s') ∧ (a = 0 ∧ Idle s s' L L' ∨ NewSlab s s' L L' c a) := by
  have hsize : sizeofSlab + getSlabFreelistSize (s.caches c).nObjects =
      (s.caches c).headerSize := rfl
  rw [allocateSlab, if_pos rfl]
  simp only [hsize, hkmalloc, ok_bind]
  rcases hserved with ⟨rfl, hidle⟩ | ⟨htaken, hsame⟩
  · exact ⟨0, s₁, L₁, rfl, .inl ⟨rfl, hidle⟩⟩
  have hsound := htaken.step.sound
  have hcaches : s₁.caches c = s.caches c := by rw [htaken.step.caches]
  have hc₁ : L₁.caches c := by rw [htaken.step.known]; exact hc
  have hlive : liveObjects s₁ L₁ =
      insert (.kmalloc (s.caches c).headerCache, p) (liveObjects s L) := htaken.step.live_eq
  have hmem : (CacheRef.kmalloc (s.caches c).headerCache, p) ∈ liveObjects s₁ L₁ := by
    rw [hlive]
    exact Set.mem_insert _ _
  rw [if_neg htaken.ne_zero]
  rcases slabPages_cases hsrc s₁.pages (s.caches c).nPages with
    ⟨ps, hrequest, howned, hrefused⟩ | ⟨addr, ps, hfresh, hrequest, howned, hrefused⟩
  · -- There are no pages: the header is given back.
    have hpages := hsound.withPages howned hrefused
    have hprobed₁ : State.Probed { s₁ with pages := ps } := htaken.step.probed hsame hprobed
    rw [← hpages.live_eq] at hmem
    obtain ⟨s₂, L₂, hfree, hstep⟩ := kfree_spec hpages.sound hprobed₁ hindex hmem
    refine ⟨0, s₂, L₂, ?_, .inl ⟨rfl, ?_⟩⟩
    · simp only [hrequest, if_true, hfree, ok_bind]
      rfl
    · have hback : liveObjects { s₁ with pages := ps } L₁ \
          {(.kmalloc (s.caches c).headerCache, p)} = liveObjects s L := by
        rw [hpages.live_eq, hlive, Set.insert_sdiff_of_mem _ (Set.mem_singleton _)]
        exact Set.sdiff_singleton_eq_self htaken.fresh
      rw [hback] at hstep
      exact (htaken.step.trans hpages).trans hstep
  · have hpayload : addr = addr + (s₁.caches c).offset := by
      rw [hcaches, Cache.offset, if_pos hoff]
      rfl
    have hnot : ∀ c', ¬ L₁.SlabOf c' p := fun c' =>
      hsound.inv.not_slab (mem_liveObjects.mp hmem).1 (mem_liveObjects.mp hmem).2
    obtain ⟨s', L', rfl, hstep, hloose, hfree, hslab, habsent⟩ := hsound.newSlab hc₁ hnot
      (by rwa [hcaches]) hpayload (by rw [hcaches]; exact howned) hrefused
      (fun hon => by rw [hcaches, hoff] at hon; cases hon)
      (fun _ => by rw [hcaches]; exact (mem_liveObjects.mp hmem).1)
    rw [hcaches] at hstep hfree hslab habsent
    refine ⟨p, _, L', ?_, .inr ⟨?_, hrefused.trans hsame, htaken.ne_zero, hloose, hfree, hslab,
      habsent⟩⟩
    · simp only [hrequest, if_neg hfresh.ne_zero]
      rfl
    · have hback : {x | x ∈ liveObjects s₁ L₁ ∧ ¬ ((s.caches c).offslab = true ∧
          x = (.kmalloc (s.caches c).headerCache, p))} = liveObjects s L := by
        ext x
        rw [hlive, hoff]
        constructor
        · rintro ⟨rfl | hx, hne⟩
          · exact absurd ⟨rfl, rfl⟩ hne
          · exact hx
        · refine fun hx => ⟨.inr hx, ?_⟩
          rintro ⟨-, rfl⟩
          exact htaken.fresh hx
      rw [hback] at hstep
      exact htaken.step.trans hstep

/-! ### Growing -/

/-- The addresses over which the loops over the pages of a slab go. -/
theorem slabAddrs_spec (h : Inv s L) (ha : L.SlabOf c a) :
    (slabAddrs (s.slabs a).payload (s.caches c).nPages).map getPage =
      pages (s.base a) (s.caches c).nPages ∧
    ∀ x ∈ slabAddrs (s.slabs a).payload (s.caches c).nPages, getPage x ≠ 0 ∧ x < 2 ^ 64 := by
  have hplaced := h.placed c a ha
  have hoffset := (h.wf c hplaced.cache).offset_lt
  have haligned := base_aligned s a
  have hfits := hplaced.fits
  have hne := hplaced.base_ne
  have haddr : ∀ i < (s.caches c).nPages,
      wadd (s.slabs a).payload (i * pageSize) = s.base a + (s.caches c).offset + i * pageSize ∧
      s.base a + (s.caches c).offset + i * pageSize < 2 ^ 64 := by
    intro i hi
    have hmul : (i + 1) * pageSize ≤ (s.caches c).nPages * pageSize := Nat.mul_le_mul_right _ hi
    rw [Nat.succ_mul] at hmul
    have hlt : s.base a + (s.caches c).offset + i * pageSize < 2 ^ 64 := by omega
    rw [hplaced.payload_eq]
    exact ⟨wadd_of_lt hlt, hlt⟩
  have hpage : ∀ i < (s.caches c).nPages,
      getPage (wadd (s.slabs a).payload (i * pageSize)) = s.base a + i * pageSize := by
    intro i hi
    rw [(haddr i hi).1]
    simp only [getPage, pageSize] at *
    omega
  constructor
  · rw [slabAddrs, List.map_map, pages]
    exact List.map_congr_left fun i hi => hpage i (List.mem_range.mp hi)
  · intro x hx
    obtain ⟨i, hi, rfl⟩ := List.mem_map.mp hx
    have hi' := List.mem_range.mp hi
    rw [hpage i hi', (haddr i hi').1]
    exact ⟨by omega, (haddr i hi').2⟩

/-- Another map, with all keys of the old one, leaves the objects as they are. -/
theorem Sound.remap (h : Sound s L) {map : Hashmap ℕ} {ps : Pages} {owner : ℕ → Option Owner}
    (hwf : Wf map) (howned : ∀ q o, owner q = some o → q ∈ ps.owned)
    (htable : ∀ q ∈ pages map.base (mapPages map), owner q = some .table)
    (hkeep : ∀ q o, o ≠ .table → L.owner q = some o → owner q = some o)
    (hkeys : ∀ k v, k ≠ 0 → Contains map.entries k v →
      ∃ c, L.SlabOf c v ∧ k ∈ pages (s.base v) (s.caches c).nPages)
    (hregistered : ∀ c a, L.Linked c a → ∀ q ∈ pages (s.base a) (s.caches c).nPages,
      Contains map.entries q a)
    (hrefused : s.pages.refused ≤ ps.refused)
    (hprobed : ps.refused = s.pages.refused → s.Probed →
      State.Probed { s with hashmap := map, pages := ps }) :
    Step s { s with hashmap := map, pages := ps } L { L with owner := owner }
      (liveObjects s L) := by
  have hinv := h.inv.remap hwf howned htable hkeep hkeys hregistered
  obtain ⟨hsound, hlive⟩ := h.same hinv rfl rfl (fun _ _ => Iff.rfl) (fun _ _ => Iff.rfl)
    (fun _ => Iff.rfl) fun _ _ _ => ⟨rfl, rfl⟩
  exact ⟨hsound, rfl, rfl, hlive, hrefused, hprobed⟩

/-- Entering the pages of a new slab, and putting it into the list of the empty slabs. -/
theorem NewSlab.register {s₁ : State} {L₁ : Layout} (h : NewSlab s s₁ L L₁ c a)
    {src : PageSource} (hsrc : src.Sound) :
    ∃ failed map ps, insertPages src a (slabAddrs (s₁.slabs a).payload (s.caches c).nPages)
        s₁.hashmap s₁.pages = .ok (failed, map, ps) ∧
      (failed = [] → ∃ links L', pushFront s₁.links (.slabs c .emptySlabs) (.slab a) = .ok links ∧
        Step s ({ s₁ with hashmap := map, pages := ps, links := links }.setSlab a
          { s₁.slabs a with owner := some c }) L L' (liveObjects s L) ∧
        ps.refused = s.pages.refused ∧ ∃ as, L'.lists c .emptySlabs = a :: as) ∧
      (failed ≠ [] → ∃ map' L', deletePages ((slabAddrs (s₁.slabs a).payload
          (s.caches c).nPages).take ((slabAddrs (s₁.slabs a).payload
            (s.caches c).nPages).length - failed.length)) map = .ok map' ∧
        Step s { s₁ with hashmap := map', pages := ps } L L' (liveObjects s L)) := by
  have hsound := h.step.sound
  have hinv := hsound.inv
  have hcaches : s₁.caches c = s.caches c := by rw [h.step.caches]
  obtain ⟨hpages, haddr⟩ := slabAddrs_spec hinv (.inr h.loose)
  rw [hcaches] at hpages haddr
  have hnew : ∀ x ∈ slabAddrs (s₁.slabs a).payload (s.caches c).nPages, ∀ v,
      ¬ Contains s₁.hashmap.entries (getPage x) v := fun x hx v =>
    h.absent _ (hpages ▸ List.mem_map_of_mem hx) v
  obtain ⟨entered, failed, map, ps, hsplit, hinsert, hwf, hprobed, hcontains, hle, hfailed, owner,
    howned, htable, hkeep⟩ := insertPages_spec hsrc a hinv.map haddr
      (hpages ▸ nodup_pages _ _) hnew hinv.owned hinv.table
  have hentered : ∀ k ∈ entered.map getPage, k ∈ pages (s₁.base a) (s.caches c).nPages := by
    intro k hk
    rw [← hpages, hsplit, List.map_append]
    exact List.mem_append_left _ hk
  have hkeys : ∀ k v, k ≠ 0 → Contains map.entries k v →
      ∃ c', L₁.SlabOf c' v ∧ k ∈ pages (s₁.base v) (s₁.caches c').nPages := by
    intro k v hk hv
    rcases (hcontains k v hk).mp hv with ⟨hmem, rfl⟩ | hv
    · exact ⟨c, .inr h.loose, by rw [hcaches]; exact hentered k hmem⟩
    · exact hinv.keys k v hk hv
  have hregistered : ∀ c' b, L₁.Linked c' b → ∀ q ∈ pages (s₁.base b) (s₁.caches c').nPages,
      Contains map.entries q b := fun c' b hb q hq =>
    (hcontains q b ((hinv.placed c' b (.inl hb)).page_ne_zero hq)).mpr
      (.inr (hinv.registered c' b hb q hq))
  refine ⟨failed, map, ps, hinsert, fun hnil => ?_, fun hne => ?_⟩
  · have hall : entered = slabAddrs (s₁.slabs a).payload (s.caches c).nPages := by
      rw [hsplit, hnil, List.append_nil]
    have hsame : ps.refused = s₁.pages.refused := hfailed.mp hnil
    have hremap := hsound.remap hwf howned htable hkeep hkeys hregistered hle
      fun _ hpr => hprobed hpr
    have hslab := h.wf
    rw [← hcaches] at hslab
    obtain ⟨links, hpush, hlink⟩ := hremap.sound.link (c := c) (a := a) h.loose hslab
      (fun i hi => by
        have hi' : i < (s₁.caches c).nObjects := hi
        rw [hcaches] at hi'
        have hfree := h.free_eq
        exact hfree ▸ List.mem_range.mpr hi')
      (fun q hq => by
        have hmem : q ∈ pages (s₁.base a) (s₁.caches c).nPages := hq
        rw [hcaches, ← hpages, ← hall] at hmem
        have hne : q ≠ 0 := by
          obtain ⟨x, hx, rfl⟩ := List.mem_map.mp hmem
          exact (haddr x (hall ▸ hx)).1
        exact (hcontains q a hne).mpr (.inl ⟨hmem, rfl⟩))
    refine ⟨links, Layout.link { L₁ with owner := owner } c a, hpush, ?_,
      hsame.trans h.refused_eq, L₁.lists c .emptySlabs, ?_⟩
    · have hstep := (h.step.trans hremap).trans hlink
      rwa [hremap.live_eq, h.step.live_eq] at hstep
    · simp [Layout.link]
  · obtain ⟨map', hdelete, hwf', hbase, htotal, hback, hkept⟩ := deletePages_spec
      entered hwf
    have htake : (slabAddrs (s₁.slabs a).payload (s.caches c).nPages).take
        ((slabAddrs (s₁.slabs a).payload (s.caches c).nPages).length - failed.length) =
        entered := by
      rw [hsplit, List.length_append, Nat.add_sub_cancel, List.take_left]
    have hmapPages : pages map'.base (mapPages map') = pages map.base (mapPages map) := by
      rw [hbase, mapPages, mapPages, htotal]
    have hmore : ps.refused ≠ s₁.pages.refused := fun hsame => hne (hfailed.mpr hsame)
    have hremap := hsound.remap hwf' howned (hmapPages ▸ htable) hkeep
      (fun k v hk hv => hkeys k v hk (hback k v hk hv))
      (fun c' b hb q hq => by
        refine hkept q b ((hinv.placed c' b (.inl hb)).page_ne_zero hq) (fun hmem => ?_)
          (hregistered c' b hb q hq)
        -- The pages whose entries are deleted are those of the new slab.
        have hmem' := hentered q hmem
        rw [← hcaches] at hmem'
        obtain ⟨rfl, rfl⟩ := hinv.page_unique (.inl hb) (.inr h.loose) hq hmem'
        exact hinv.apart _ _ hb h.loose)
      hle fun hsame _ => absurd hsame hmore
    have hstep := h.step.trans hremap
    rw [h.step.live_eq] at hstep
    exact ⟨map', _, by rw [htake]; exact hdelete, hstep⟩

/-- **A cache that grows** has one more empty slab in front; one that does not grow is left as
it was. -/
theorem growCache_spec {src : PageSource} (hsrc : src.Sound)
    {kmalloc : State → ℕ → Except Fault (ℕ × State)} (h : Sound s L) (hprobed : s.Probed)
    (hc : L.caches c) (hkmalloc : (s.caches c).offslab = true →
      (s.caches c).headerCache < kmallocNCaches ∧ ∃ p s₁ L₁,
        kmalloc s (s.caches c).headerSize = .ok (p, s₁) ∧
        Served s s₁ L L₁ (.kmalloc (s.caches c).headerCache) p) :
    ∃ grown s' L', growCache src kmalloc s c = .ok (grown, s') ∧
      Step s s' L L' (liveObjects s L) ∧ (grown = true →
        s'.pages.refused = s.pages.refused ∧ ∃ a as, L'.lists c .emptySlabs = a :: as) := by
  have hallocate : ∃ a s₁ L₁, allocateSlab src kmalloc s (s.caches c).nPages
      (s.caches c).nObjects (s.caches c).offslab = .ok (a, s₁) ∧
      (a = 0 ∧ Idle s s₁ L L₁ ∨ NewSlab s s₁ L L₁ c a) := by
    cases hoff : (s.caches c).offslab with
    | false => exact allocateSlab_onslab hsrc kmalloc h hc hoff
    | true =>
        obtain ⟨hindex, p, s₁, L₁, hcall, hserved⟩ := hkmalloc hoff
        exact allocateSlab_offslab hsrc hprobed hc hoff hindex hcall hserved
  obtain ⟨a, s₁, L₁, hcall, ⟨rfl, hidle⟩ | hnew⟩ := hallocate
  · refine ⟨false, s₁, L₁, ?_, hidle, fun h => by cases h⟩
    rw [growCache]
    simp only [hcall, ok_bind, if_true]
    rfl
  · obtain ⟨failed, map, ps, hinsert, hall, hsome⟩ := hnew.register hsrc
    by_cases hnil : failed = []
    · obtain ⟨links, L', hpush, hstep, hrefused, as, hlist⟩ := hall hnil
      refine ⟨true, _, L', ?_, hstep, fun _ => ⟨hrefused, a, as, hlist⟩⟩
      rw [growCache]
      simp only [hcall, ok_bind, if_neg hnew.ne_zero, hinsert, hnil, ne_eq, not_true_eq_false,
        if_false, hpush]
      rfl
    · obtain ⟨map', L', hdelete, hstep⟩ := hsome hnil
      refine ⟨false, _, L', ?_, hstep, fun h => by cases h⟩
      rw [growCache]
      simp only [hcall, ok_bind, if_neg hnew.ne_zero, hinsert, if_pos hnil, hdelete]
      rfl

end

end MugOS.SlabAllocator
