import LeaseOverlay.Seed
import LeaseOverlay.Cache

namespace LeaseOverlay

inductive SeedingKind
  | uri
  | cache
  deriving DecidableEq

structure Seeding where
  kind : SeedingKind
  owner : PeerId
  configured : List Candidate
  given : List Candidate
  onlySeeds : Bool
  stopped : Bool
  deriving DecidableEq

namespace Seeding

def ofUris (kind : SeedingKind) (owner : PeerId) (uris : List String) (onlySeeds : Bool) :
    Except SeedError Seeding :=
  (uris.mapM Candidate.parse).map fun cs => ⟨kind, owner, cs, [], onlySeeds, false⟩

def firsts (seen : List Destination) : List Candidate → List Candidate
  | [] => []
  | c :: cs =>
    if c.destination ∈ seen then firsts seen cs
    else c :: firsts (c.destination :: seen) cs

def seeds (s : Seeding) : List Candidate := firsts [] (s.configured ++ s.given)

def matchesSeed (d : Descriptor) (c : Candidate) : Bool :=
  match c.peer with
  | some p => p = d.peer
  | none => d.addresses.contains c.address

def accepts (s : Seeding) (d : Descriptor) : Bool :=
  !s.onlySeeds || s.seeds.any (matchesSeed d)

def remembered (s : Seeding) (cache : Cache) (now : Time) : List Candidate :=
  match s.kind with
  | .uri => []
  | .cache => ((cache.descriptors now).filter fun d => d.peer ≠ s.owner && s.accepts d).map
      fun d => .ofRoute d.route

def candidates (s : Seeding) (cache : Cache) (now : Time) : List Candidate :=
  if s.stopped then [] else firsts [] (s.remembered cache now ++ s.seeds)

def add (s : Seeding) (c : Candidate) : Seeding :=
  if c ∈ s.given ∨ c ∈ s.configured then s else { s with given := s.given ++ [c] }

def addRoute (s : Seeding) (r : Route) : Seeding := s.add (.ofRoute r)

def addAddress (s : Seeding) (address : String) : Seeding :=
  match Candidate.parse address with
  | .ok c => s.add c
  | .error _ => s

def stop (s : Seeding) : Seeding := { s with stopped := true }

end Seeding

end LeaseOverlay
