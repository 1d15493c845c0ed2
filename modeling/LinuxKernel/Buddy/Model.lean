import LinuxKernel.Base.Aligned

/-! # The buddy allocator

The free pages of a zone are kept in blocks of `2 ^ order` pages, on one list for each
order and migrate type. Freeing a block merges it with its buddy as long as that one is
free too, and an allocation splits the block it takes down to the order it needs.
-/

namespace LinuxKernel.Buddy

open Function

inductive MigrateType where
  | unmovable
  | reclaimable
  | movable
  | reserve
  | isolate
  deriving DecidableEq, Repr

def MigrateType.all : List MigrateType := [.unmovable, .reclaimable, .movable, .reserve, .isolate]

/-- What does not change while a zone is in use. A page belongs to the zone when
`page_zone_id` gives `zone`, and such a page lies in the span of the zone. The zones may be
interleaved, but within the span no pageblock is shared between two of them. -/
structure Config where
  maxOrder : ℕ
  pageblockOrder : ℕ
  holesInZone : Bool
  pageGroupByMobilityDisabled : Bool
  pfnValid : ℕ → Bool
  pageZoneId : ℕ → ℕ
  zone : ℕ
  zoneStartPfn : ℕ
  spannedPages : ℕ
  two_le_maxOrder : 2 ≤ maxOrder
  pageblockOrder_pos : 1 ≤ pageblockOrder
  in_span : ∀ p, pageZoneId p = zone → zoneStartPfn ≤ p ∧ p < zoneStartPfn + spannedPages
  pageblock_zone : ∀ p q, pageZoneId p = zone → q / 2 ^ pageblockOrder = p / 2 ^ pageblockOrder →
    zoneStartPfn ≤ q → q < zoneStartPfn + spannedPages → (!holesInZone || pfnValid q) →
    pageZoneId q = zone

def Config.pfnValidWithin (c : Config) (p : ℕ) : Bool := !c.holesInZone || c.pfnValid p

def Config.InZone (c : Config) (p : ℕ) : Prop := c.pageZoneId p = c.zone

instance (c : Config) (p : ℕ) : Decidable (c.InZone p) :=
  inferInstanceAs (Decidable (c.pageZoneId p = c.zone))

/-- The fields of a `struct page` that the allocator looks at. `lruOrder` is the order that
`set_compound_order` stores in `lru.prev` of the second page. -/
structure Page where
  buddy : Bool
  priv : ℕ
  head : Bool
  tail : Bool
  firstPage : ℕ
  lruOrder : ℕ
  deriving DecidableEq, Repr

def Page.compound (p : Page) : Bool := p.head || p.tail

/-- A zone with the pages that its lists link. `freeList o mt` and `nrFree o` are the fields
of `free_area[o]`, and `pageblockType` holds the migrate types of the pageblocks. -/
structure Zone where
  freeList : ℕ → MigrateType → List ℕ
  nrFree : ℕ → ℤ
  page : ℕ → Page
  pageblockType : ℕ → MigrateType

namespace Zone

variable (z : Zone)

def setPage (p : ℕ) (pg : Page) : Zone := { z with page := update z.page p pg }

def listDel (p : ℕ) : Zone := { z with freeList := fun o mt => (z.freeList o mt).erase p }

def setList (o : ℕ) (mt : MigrateType) (l : List ℕ) : Zone :=
  { z with freeList := update z.freeList o (update (z.freeList o) mt l) }

def listAdd (p o : ℕ) (mt : MigrateType) : Zone := z.setList o mt (p :: z.freeList o mt)

def listAddTail (p o : ℕ) (mt : MigrateType) : Zone := z.setList o mt (z.freeList o mt ++ [p])

def addNrFree (o : ℕ) (n : ℤ) : Zone :=
  { z with nrFree := update z.nrFree o (z.nrFree o + n) }

def setPageOrder (p o : ℕ) : Zone := z.setPage p { z.page p with buddy := true, priv := o }

def rmvPageOrder (p : ℕ) : Zone := z.setPage p { z.page p with buddy := false, priv := 0 }

end Zone

section Compound

/-- All that `bad_page` does beside complaining. -/
def badPage (z : Zone) (p : ℕ) : Zone := z.setPage p { z.page p with buddy := false }

def compoundOrder (z : Zone) (p : ℕ) : ℕ :=
  if (z.page p).head then (z.page (p + 1)).lruOrder else 0

/-- One round of the loop over the tail pages. -/
def destroyTail (p : ℕ) (bz : ℕ × Zone) (i : ℕ) : ℕ × Zone :=
  let q := p + i
  let (bad, z) := bz
  let (bad, z) := if !(z.page q).tail ∨ (z.page q).firstPage ≠ p then (bad + 1, badPage z p)
    else (bad, z)
  (bad, z.setPage q { z.page q with tail := false })

def destroyCompoundPage (z : Zone) (p order : ℕ) : ℕ × Zone :=
  let (bad, z) := if compoundOrder z p ≠ order ∨ !(z.page p).head then (1, badPage z p)
    else (0, z)
  let z := z.setPage p { z.page p with head := false }
  (List.range' 1 (2 ^ order - 1)).foldl (destroyTail p) (bad, z)

end Compound

section Free

variable (c : Config)

def findBuddyIndex (pageIdx order : ℕ) : ℕ := pageIdx ^^^ 2 ^ order

def pageIsBuddy (z : Zone) (page buddy order : ℕ) : Bool :=
  if !c.pfnValidWithin buddy then false
  else if c.pageZoneId page ≠ c.pageZoneId buddy then false
  else (z.page buddy).buddy && (z.page buddy).priv == order

/-- The merging loop, with the number of rounds that `order < MAX_ORDER-1` still allows. -/
def mergeLoop : ℕ → Zone → ℕ → ℕ → ℕ → Zone × ℕ × ℕ × ℕ
  | 0, z, page, pageIdx, order => (z, page, pageIdx, order)
  | rounds + 1, z, page, pageIdx, order =>
    let buddyIdx := findBuddyIndex pageIdx order
    let buddy := page + buddyIdx - pageIdx
    if !pageIsBuddy c z page buddy order then (z, page, pageIdx, order)
    else
      let z := ((z.listDel buddy).addNrFree order (-1)).rmvPageOrder buddy
      let combinedIdx := buddyIdx &&& pageIdx
      mergeLoop rounds z (page + combinedIdx - pageIdx) combinedIdx (order + 1)

/-- Is the buddy of the next order free? The distance to it is taken from the lower half but
added to the page, so that for an upper half the page looked at is not the buddy. -/
def higherIsBuddy (z : Zone) (page pageIdx order : ℕ) : Bool :=
  let buddyIdx := findBuddyIndex pageIdx order
  let buddy := page + buddyIdx - pageIdx
  if order < c.maxOrder - 2 ∧ c.pfnValidWithin buddy then
    let combinedIdx := buddyIdx &&& pageIdx
    let higherPage := page + combinedIdx - pageIdx
    let higherIdx := findBuddyIndex combinedIdx (order + 1)
    pageIsBuddy c z higherPage (page + higherIdx - combinedIdx) (order + 1)
  else false

/-- What follows the merging loop. -/
def link (z : Zone) (page pageIdx order : ℕ) (mt : MigrateType) : Zone :=
  let z := z.setPageOrder page order
  let z := if higherIsBuddy c z page pageIdx order then z.listAddTail page order mt
    else z.listAdd page order mt
  z.addNrFree order 1

def freeOnePage (z : Zone) (page order : ℕ) (mt : MigrateType) : Zone :=
  let (bad, z) := if (z.page page).compound then destroyCompoundPage z page order else (0, z)
  if bad ≠ 0 then z
  else
    let pageIdx := page &&& (2 ^ c.maxOrder - 1)
    let (z, page, pageIdx, order) := mergeLoop c (c.maxOrder - 1 - order) z page pageIdx order
    link c z page pageIdx order mt

end Free

section Allocate

/-- Put the upper halves of a block on the lists until only `2 ^ low` pages are left. -/
def expand (page low : ℕ) (mt : MigrateType) : ℕ → Zone → Zone
  | 0, z => z
  | high + 1, z =>
    if low < high + 1 then
      let upper := page + 2 ^ high
      expand page low mt high (((z.listAdd upper high mt).addNrFree high 1).setPageOrder upper high)
    else z

variable (c : Config)

def orders (order : ℕ) : List ℕ := List.range' order (c.maxOrder - order)

def rmqueueSmallest (z : Zone) (order : ℕ) (mt : MigrateType) : Option (ℕ × Zone) :=
  (orders c order).findSome? fun currentOrder =>
    match z.freeList currentOrder mt with
    | [] => none
    | page :: _ =>
      let z := ((z.listDel page).rmvPageOrder page).addNrFree currentOrder (-1)
      some (page, expand page order mt currentOrder z)

/-- The fallback table. Its rows have `MIGRATE_TYPES - 1` entries, so that the ones that are
not written out are `MIGRATE_UNMOVABLE`. -/
def fallbacks : MigrateType → List MigrateType
  | .unmovable => [.reclaimable, .movable, .reserve, .unmovable]
  | .reclaimable => [.unmovable, .movable, .reserve, .unmovable]
  | .movable => [.reclaimable, .unmovable, .reserve, .unmovable]
  | .reserve => [.reserve, .reserve, .reserve, .unmovable]
  | .isolate => [.unmovable, .unmovable, .unmovable, .unmovable]

/-- The loop of `move_freepages`, with the number of pages moved so far. -/
def moveLoop (mt : MigrateType) (endPage : ℕ) (z : Zone) (moved page : ℕ) : ℕ × Zone :=
  if page ≤ endPage then
    if !c.pfnValidWithin page then moveLoop mt endPage z moved (page + 1)
    else if !(z.page page).buddy then moveLoop mt endPage z moved (page + 1)
    else
      let order := (z.page page).priv
      moveLoop mt endPage ((z.listDel page).listAdd page order mt) (moved + 2 ^ order)
        (page + 2 ^ order)
  else (moved, z)
termination_by endPage + 1 - page
decreasing_by
  · omega
  · omega
  · have := Nat.two_pow_pos (z.page page).priv
    omega

/-- `none` stands for the `BUG_ON`. -/
def moveFreepages (z : Zone) (startPage endPage : ℕ) (mt : MigrateType) : Option (ℕ × Zone) :=
  if !c.holesInZone ∧ c.pageZoneId startPage ≠ c.pageZoneId endPage then none
  else some (moveLoop c mt endPage z 0 startPage)

def moveFreepagesBlock (z : Zone) (page : ℕ) (mt : MigrateType) : Option (ℕ × Zone) :=
  let startPfn := page / 2 ^ c.pageblockOrder * 2 ^ c.pageblockOrder
  let endPfn := startPfn + 2 ^ c.pageblockOrder - 1
  let startPage := if startPfn < c.zoneStartPfn then page else startPfn
  if endPfn ≥ c.zoneStartPfn + c.spannedPages then some (0, z)
  else moveFreepages c z startPage endPfn mt

def setPageblockMigratetype (z : Zone) (page : ℕ) (mt : MigrateType) : Zone :=
  let mt := if c.pageGroupByMobilityDisabled then .unmovable else mt
  let block := (page - c.zoneStartPfn) / 2 ^ c.pageblockOrder
  { z with pageblockType := update z.pageblockType block mt }

def changePageblockRange (z : Zone) (page startOrder : ℕ) (mt : MigrateType) : Zone :=
  (List.range (2 ^ (startOrder - c.pageblockOrder))).foldl
    (fun z i => setPageblockMigratetype c z (page + i * 2 ^ c.pageblockOrder) mt) z

/-- Move the free pages around a block to the list that is fallen back for. Returned is the
type of the list that the rest of the block goes to. -/
def takeOwnership (z : Zone) (page currentOrder : ℕ) (start mt : MigrateType) :
    Option (MigrateType × Zone) :=
  if currentOrder ≥ c.pageblockOrder / 2 ∨ start = .reclaimable ∨ c.pageGroupByMobilityDisabled then
    (moveFreepagesBlock c z page start).map fun (pages, z) =>
      (start, if pages ≥ 2 ^ (c.pageblockOrder - 1) ∨ c.pageGroupByMobilityDisabled
        then setPageblockMigratetype c z page start else z)
  else some (mt, z)

/-- What the fallback does with the first block that it finds. -/
def steal (z : Zone) (page order currentOrder : ℕ) (start mt : MigrateType) :
    Option (ℕ × Zone) :=
  (takeOwnership c (z.addNrFree currentOrder (-1)) page currentOrder start mt).map fun (mt, z) =>
    let z := (z.listDel page).rmvPageOrder page
    let z := if currentOrder ≥ c.pageblockOrder
      then changePageblockRange c z page currentOrder start else z
    (page, expand page order mt currentOrder z)

/-- The outer `none` is a search without a result and the inner one a `BUG_ON`. -/
def rmqueueFallback (z : Zone) (order : ℕ) (start : MigrateType) : Option (Option (ℕ × Zone)) :=
  (orders c order).reverse.findSome? fun currentOrder =>
    (fallbacks start).findSome? fun mt =>
      if mt = .reserve then none
      else match z.freeList currentOrder mt with
        | [] => none
        | page :: _ => some (steal c z page order currentOrder start mt)

/-- The page that is returned and the zone after it, or `none` for a `BUG_ON`. -/
def rmqueue (z : Zone) (order : ℕ) (mt : MigrateType) : Option (Option ℕ × Zone) :=
  match rmqueueSmallest c z order mt with
  | some (page, z') => some (some page, z')
  | none =>
    if mt = .reserve then some (none, z)
    else match rmqueueFallback c z order mt with
      | some r => r.map fun (page, z') => (some page, z')
      | none => match rmqueueSmallest c z order .reserve with
        | some (page, z') => some (some page, z')
        | none => some (none, z)

end Allocate

end LinuxKernel.Buddy
