/-!
# ScriptMachine.Hash — the two string hashes

Interned strings carry a FNV-1a hash; dictionary keys a multiply-by-33 hash. Both run over the UTF-8
bytes with 32-bit wrap-around.
-/

namespace ScriptMachine

/-- Folds a byte function over the UTF-8 bytes of a text. -/
def foldBytes (f : UInt32 → UInt32 → UInt32) (start : UInt32) (s : String) : UInt32 :=
  s.toUTF8.foldl (fun h b => f h b.toUInt32) start

/-- FNV-1a, the hash every interned string carries. -/
def hashText (s : String) : UInt32 :=
  foldBytes (fun h b => (h ^^^ b) * 16777619) 2166136261 s

/-- The hash of a dictionary key. -/
def hashKey (s : String) : UInt32 :=
  foldBytes (fun h b => (h <<< 5) + h + b) 5381 s

end ScriptMachine
