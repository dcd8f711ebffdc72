import Recurrence.Resolution.Basic

/-!
Remembering resolutions. Only days depend on the month, so every other unit is remembered without
it. Time in the cache is a clock of its own, in milliseconds, that is moved on from outside. Calls
come one at a time, so that entries change only between them.
-/

namespace Recurrence

/-- How long entries are kept, and when sweeping starts. -/
structure CacheConfig where
  ttl : Nat
  sweepThreshold : Nat
  sweepInterval : Nat
  deriving DecidableEq

def CacheConfig.standard : CacheConfig := ⟨600000, 10000, 60000⟩

/-- What a resolution is remembered under. -/
structure CacheKey where
  unit : TimeUnit
  year : Int
  month : Int
  text : String
  deriving DecidableEq

def CacheKey.of (u : TimeUnit) (year month : Int) (text : String) : CacheKey :=
  if u = .day then ⟨u, year, month, text⟩ else ⟨u, 0, 0, text⟩

/-- A remembered resolution and when it was last used. -/
structure CacheEntry where
  value : Resolution
  lastUse : Nat

/-- Entries that go when they have not been used for long. -/
structure Cache where
  config : CacheConfig
  entries : List (CacheKey × CacheEntry)
  now : Nat
  sweeperStarted : Bool

namespace Cache

def new (config : CacheConfig) : Cache := ⟨config, [], 0, false⟩

def size (c : Cache) : Nat := c.entries.length

def get (c : Cache) (key : CacheKey) : Option Resolution × Cache :=
  match c.entries.lookup key with
  | none => (none, c)
  | some e =>
    let touch (p : CacheKey × CacheEntry) : CacheKey × CacheEntry :=
      if p.1 = key then (p.1, { p.2 with lastUse := c.now }) else p
    (some e.value, { c with entries := c.entries.map touch })

/-- Stores a resolution in place of what was under the key. Growing past the threshold starts the
sweeper. -/
def insert (c : Cache) (key : CacheKey) (value : Resolution) : Cache :=
  let entries := (key, ⟨value, c.now⟩) :: c.entries.filter fun p => p.1 ≠ key
  { c with
    entries := entries
    sweeperStarted := c.sweeperStarted || c.config.sweepThreshold < entries.length }

/-- Drops the entries that have been idle for longer than they are kept. -/
def sweep (c : Cache) : Nat × Cache :=
  let kept := c.entries.filter fun p => c.now - p.2.lastUse ≤ c.config.ttl
  (c.entries.length - kept.length, { c with entries := kept })

def wait (c : Cache) (ms : Nat) : Cache := { c with now := c.now + ms }

end Cache

/-- Where a resolver keeps what it has resolved. -/
inductive Memory
  | nothing
  | cached (cache : Cache)

namespace Memory

def get (m : Memory) (key : CacheKey) : Option Resolution × Memory :=
  match m with
  | nothing => (none, nothing)
  | cached c => ((c.get key).1, cached (c.get key).2)

def insert (m : Memory) (key : CacheKey) (value : Resolution) : Memory :=
  match m with
  | nothing => nothing
  | cached c => cached (c.insert key value)

def size : Memory → Nat
  | nothing => 0
  | cached c => c.size

/-- What a text stands for, looked up first and kept afterwards. -/
def resolve (m : Memory) (u : TimeUnit) (year month : Int) (text : String) : Resolution × Memory :=
  let key := CacheKey.of u year month text
  match m.get key with
  | (some hit, m) => (hit, m)
  | (none, m) =>
    let value := Resolution.ofText u year month text
    (value, m.insert key value)

end Memory

end Recurrence
