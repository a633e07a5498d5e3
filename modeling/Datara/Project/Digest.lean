import Datara.Library.Merkle
import Datara.Project.Paths
import Mathlib.Data.List.Sort
import Mathlib.Data.String.Basic

/-!
# Package digests

`compute_digest` and `compute_merkle_root` of `project/pm/registry.rs`. SHA-256 is a parameter: a
function from messages to hexadecimal text, of which a theorem asks that it separates the messages
that were hashed.
-/

namespace Datara.Project

open Library

/-- A `HashMap<String, String>` of relative paths and contents, in some order of iteration. -/
structure FileMap where
  entries : List (Text × Text)
  nodup : (entries.map Prod.fst).Nodup

namespace FileMap

variable (files : FileMap)

def get? (k : Text) : Option Text := files.entries.lookup k

/-- The keys, sorted. -/
def sortedKeys : List Text := (files.entries.map Prod.fst).insertionSort (· ≤ ·)

/-- The files in the order of their paths. -/
def sorted : List (Text × Text) := files.sortedKeys.map fun k => (k, (files.get? k).getD [])

end FileMap

/-- `replace("\r\n", "\n")`. -/
def normalizeNewlines : Text → Text
  | '\r' :: '\n' :: cs => '\n' :: normalizeNewlines cs
  | c :: cs => c :: normalizeNewlines cs
  | [] => []

/-- The digest of no file at all: SHA-256 of the empty message. -/
def emptyDigest : Text :=
  "e3b0c44298fc1c149afbf4c8996fb92427ae41e4649b934ca495991b7852b855".toList

/-- `sha256::hexdigest`. -/
structure Hash where
  hexdigest : Text → Text
  hex : ∀ m, ':' ∉ hexdigest m
  empty : hexdigest [] = emptyDigest

/-- A file in the input of `compute_digest`. -/
def digestPart (file : Text × Text) : Text :=
  file.1 ++ ':' :: (normalizeNewlines file.2 ++ [';'])

/-- The input of `compute_digest`. -/
def digestInput (files : FileMap) : Text := files.sorted.flatMap digestPart

/-- The input of a leaf. -/
def leafInput (file : Text × Text) : Text :=
  let normalized := normalizeNewlines file.2
  "leaf:".toList ++ file.1 ++ ':' :: ((toString (utf8Length normalized)).toList ++ ':' :: normalized)

/-- The input of a node. -/
def nodeInput (left right : Text) : Text := "node:".toList ++ left ++ ':' :: right

namespace Hash

variable (H : Hash)

/-- **`compute_digest`.** -/
def computeDigest (files : FileMap) : Text :=
  "sha256:".toList ++ H.hexdigest (digestInput files)

def node (left right : Text) : Text := H.hexdigest (nodeInput left right)

def leaves (files : FileMap) : List Text := files.sorted.map fun f => H.hexdigest (leafInput f)

/-- **`compute_merkle_root`.** -/
def computeMerkleRoot (files : FileMap) : Text :=
  if files.entries = [] then "merkle:sha256:".toList ++ emptyDigest
  else "merkle:sha256:".toList ++ (Merkle.top H.node (H.leaves files)).headD []

/-- The messages the two digests hash. -/
def messages (files : FileMap) : List Text :=
  [] :: digestInput files :: (files.sorted.map leafInput ++
    (Merkle.nodesOf H.node (H.leaves files)).map fun p => nodeInput p.1 p.2)

/-- No two of the messages share a digest. -/
def CollisionFree (ms : List Text) : Prop :=
  ∀ x ∈ ms, ∀ y ∈ ms, H.hexdigest x = H.hexdigest y → x = y

instance (ms : List Text) : Decidable (H.CollisionFree ms) :=
  inferInstanceAs (Decidable (∀ x ∈ ms, ∀ y ∈ ms, H.hexdigest x = H.hexdigest y → x = y))

end Hash

namespace FileMap

/-- One file at most, with no separator and path in it that could begin another. -/
def SelfDelimiting (files : FileMap) : Prop :=
  files.entries.length ≤ 1 ∧ ∀ f ∈ files.entries, ∀ a p b,
    normalizeNewlines f.2 = a ++ ';' :: (p ++ ':' :: b) → (sanitizePackageRelPath p).isSome → p ≤ f.1

/-- Every path passes `sanitize_package_rel_path`. -/
def Accepted (files : FileMap) : Prop :=
  ∀ f ∈ files.entries, (sanitizePackageRelPath f.1).isSome

instance (files : FileMap) : Decidable files.Accepted :=
  inferInstanceAs (Decidable (∀ f ∈ files.entries, (sanitizePackageRelPath f.1).isSome))

/-- The same files, up to line endings. -/
def Same (F G : FileMap) : Prop :=
  ∀ k, (F.get? k).map normalizeNewlines = (G.get? k).map normalizeNewlines

end FileMap

end Datara.Project
