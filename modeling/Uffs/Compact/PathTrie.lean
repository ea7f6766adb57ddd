import Uffs.Lib.Csr
import Uffs.Compact.Record

open uffs.lib uffs.mft uffs.compact

namespace uffs.path_trie

def NO_PARENT : UInt32 := 0xFFFFFFFF

structure TrieNode where
  parent_idx : UInt32
  name_offset : UInt32
  name_len : UInt16
  padding : UInt16
deriving DecidableEq

/-- Directory-only tree with its own names blob and children table. -/
structure PathTrie where
  nodes : List TrieNode
  names : List UInt8
  child_offsets : List UInt32
  child_indices : List UInt32
deriving DecidableEq

/-- State of the first pass: the map from record to node, the nodes (with the record's own
parent for now) and their names. -/
structure Collected where
  record_to_trie : List (UInt32 × UInt32)
  nodes : List TrieNode
  names : List UInt8

def collect_dirs (names : List UInt8) (record_idx : Nat) : List CompactRecord → Collected → Collected
  | [], acc => acc
  | record :: records, acc =>
    if record.is_directory then
      collect_dirs names (record_idx + 1) records
        { record_to_trie := (len_to_u32 record_idx, len_to_u32 acc.nodes.length) :: acc.record_to_trie
          nodes := acc.nodes ++ [{
            parent_idx := record.parent_idx
            name_offset := len_to_u32 acc.names.length
            name_len := record.name_len
            padding := 0 }]
          names := acc.names ++ record.name_bytes names }
    else collect_dirs names (record_idx + 1) records acc

/-- Second pass: the record parent becomes the parent's node, or `NO_PARENT`. -/
def resolve_parent (record_to_trie : List (UInt32 × UInt32)) (node : TrieNode) : TrieNode :=
  { node with parent_idx :=
      if node.parent_idx = 0xFFFFFFFF then NO_PARENT
      else (record_to_trie.lookup node.parent_idx).getD NO_PARENT }

def node_emit (node : TrieNode) : List Nat :=
  if node.parent_idx ≠ NO_PARENT then [node.parent_idx.toNat] else []

def build_children_csr (nodes : List TrieNode) : csr.Csr :=
  csr.build node_emit len_to_u32 nodes.length nodes

def PathTrie.build (records : List CompactRecord) (names : List UInt8) : PathTrie :=
  let acc := collect_dirs names 0 records { record_to_trie := [], nodes := [], names := [] }
  let nodes := acc.nodes.map (resolve_parent acc.record_to_trie)
  let children := build_children_csr nodes
  { nodes := nodes, names := acc.names, child_offsets := children.offsets, child_indices := children.values }

def PathTrie.from_raw_parts (nodes : List TrieNode) (names : List UInt8) (child_offsets child_indices : List UInt32) :
    Option PathTrie :=
  if child_offsets.length ≠ nodes.length + 1 then none
  else if child_indices.length ≠ (child_offsets.getLastD 0).toNat then none
  else if nodes.all fun node => node.name_offset.toNat + node.name_len.toNat ≤ names.length then
    some { nodes := nodes, names := names, child_offsets := child_offsets, child_indices := child_indices }
  else none

end uffs.path_trie
