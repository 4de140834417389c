import Simpad.Base.Dyadic
import Simpad.Base.ListAt
import Simpad.Base.Runs
import Simpad.Base.Word

/-! The buddy allocator. Pages are numbered from the start of the zone; the checks of a page's own flags are
left out. -/

namespace Simpad.Buddy
open Dyadic Word Function

def maxOrder : ℕ := 10

/-- `zone_t`: the free lists and the maps of `free_area`, and the count of free pages. -/
structure Zone where
  size : ℕ
  freeList : ℕ → List ℕ
  map : ℕ → ℕ → Bool
  freePages : ℕ

namespace Zone

/-- `list_add` to the free list of an order. -/
def listAdd (z : Zone) (order page : ℕ) : Zone :=
  { z with freeList := update z.freeList order (page :: z.freeList order) }

/-- `list_del`; a page is on one list at most. -/
def listDel (z : Zone) (page : ℕ) : Zone :=
  { z with freeList := fun order => (z.freeList order).erase page }

def changeBit (z : Zone) (order index : ℕ) : Zone :=
  let map := update (z.map order) index (!z.map order index)
  { z with map := update z.map order map }

def badRange (z : Zone) (page : ℕ) : Bool := z.size ≤ page

/-- `zone->free_pages += n`. -/
def addPages (z : Zone) (n : ℕ) : Zone := { z with freePages := u32 (z.freePages + n) }

/-- `zone->free_pages -= n`. -/
def subPages (z : Zone) (n : ℕ) : Zone := { z with freePages := sub32 z.freePages n }

/-- The loop of `__free_pages_ok`, with `mask` given by `order`: `-mask` is `1 << order`.  `none` is a
`BUG()`. -/
def freeLoop : ℕ → Zone → ℕ → ℕ → ℕ → Option Zone
  | 0, _, _, _, _ => none
  | fuel + 1, z, order, pageIdx, index =>
    if order = maxOrder - 1 then some (z.listAdd order pageIdx)
    else if maxOrder ≤ order then none
    else if !z.map order index then some ((z.changeBit order index).listAdd order pageIdx)
    else if z.badRange (pageIdx ^^^ 2 ^ order) || z.badRange pageIdx then none
    else
      freeLoop fuel ((z.changeBit order index).listDel (pageIdx ^^^ 2 ^ order)) (order + 1)
        (pageIdx >>> (order + 1) <<< (order + 1)) (index >>> 1)

/-- `__free_pages_ok`; subtracting `mask` adds the number of pages. -/
def freePagesOk (z : Zone) (page order : ℕ) : Option Zone :=
  if page % 2 ^ order ≠ 0 then none
  else freeLoop maxOrder (z.addPages (2 ^ order)) order page (page >>> (1 + order))

def markUsed (z : Zone) (index order : ℕ) : Zone := z.changeBit order (index >>> (1 + order))

/-- `expand`; `none` is a `BUG()`. -/
def expand : ℕ → Zone → ℕ → ℕ → Option (Zone × ℕ)
  | high, z, low, page =>
    if z.badRange page then none
    else if high ≤ low then some (z,page)
    else
      match high with
      | 0 => none
      | high + 1 => expand high ((z.listAdd high page).markUsed page high) low (page + 2 ^ high)

/-- The block is taken off the list of `currOrder`. -/
def take (z : Zone) (order currOrder page : ℕ) : Option (Zone × ℕ) :=
  if z.badRange page then none
  else
    let z := z.listDel page
    let z := if currOrder ≠ maxOrder - 1 then z.markUsed page currOrder else z
    expand currOrder (z.subPages (2 ^ order)) order page

/-- The loop of `rmqueue`: the zone and the page, if there is one; `none` is a `BUG()`. -/
def rmqueueLoop (z : Zone) (order : ℕ) : ℕ → ℕ → Option (Zone × Option ℕ)
  | 0, _ => none
  | fuel + 1, currOrder =>
    match z.freeList currOrder with
    | page :: _ => (z.take order currOrder page).map fun r => (r.1,some r.2)
    | [] => if currOrder + 1 < maxOrder then rmqueueLoop z order fuel (currOrder + 1) else some (z,none)

def rmqueue (z : Zone) (order : ℕ) : Option (Zone × Option ℕ) := z.rmqueueLoop order maxOrder order

def freeBlocks (z : Zone) : List Block :=
  (List.range maxOrder).flatMap fun o => (z.freeList o).map (Block.mk o)

end Zone

structure State where
  zone : Zone
  allocated : List Block

inductive Call
  | rmqueue (order : ℕ)
  | free (b : Block)

/-- A call; `none` if it runs into a `BUG()`. -/
def step (s : State) : Call → Option State
  | .rmqueue order => (s.zone.rmqueue order).map fun r =>
      match r.2 with
      | some page => ⟨r.1,⟨order,page⟩ :: s.allocated⟩
      | none => ⟨r.1,s.allocated⟩
  | .free b => (s.zone.freePagesOk b.index b.order).map fun z => ⟨z,s.allocated.erase b⟩

/-- The order is one of the zone's, and a block is freed as it was allocated. -/
def Legal (s : State) : Call → Prop
  | .rmqueue order => order < maxOrder
  | .free b => b ∈ s.allocated

/-- A zone of `n` pages with all of them allocated and all bits clear. -/
def initial (n : ℕ) (blocks : List Block) : State := ⟨⟨n,fun _ => [],fun _ _ => false,0⟩,blocks⟩

/-- The pages one by one, as `free_all_bootmem` gives them to the zone. -/
def singlePages (n : ℕ) : List Block := (List.range n).map (Block.mk 0)

end Simpad.Buddy
