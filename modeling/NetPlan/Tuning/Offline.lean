import NetPlan.Tuning.Records

/-!
# Tuning/Offline — tuning results that come with the library

A table of records per number of compute units.  A device without a table of its own uses that of a
similar one, and in the end that of twenty-four units.  A table is read when it is first consulted.
-/

namespace NetPlan.Tuning

/-- Tables of records by compute units, and which of them have been read. -/
structure OfflineTables where
  sources : List (Nat × String)
  opened : List Nat

/-- Compute units of the table that serves unknown devices. -/
def fallbackUnits : Nat := 24

/-- The known device whose table serves a device. -/
def tableUnits (units : Nat) : Nat :=
  if units = 12 then 18
  else if [72, 24, 48, 64, 18].contains units then units
  else fallbackUnits

namespace OfflineTables

/-- Tables that are yet to be read from their texts. -/
def ofSources (sources : List (Nat × String)) : OfflineTables := ⟨sources, []⟩

/-- Records as text, a line each. -/
def lines (records : List String) : String := String.join (records.map (· ++ "\n"))

/-- The tables that come with the library. -/
def builtin : OfflineTables :=
  ofSources
    [(72, lines
        ["3f1c2a9be0d4a771 convolution_gpu_bfyx_os_iyx_osv16 187",
          "9a04d61c55e2f310 convolution_gpu_bfyx_os_iyx_osv16 32",
          "c21e8f7740b9a6d2 convolution_gpu_bfyx_3x3_dw_opt 41"]),
      (24, lines
        ["3f1c2a9be0d4a771 convolution_gpu_bfyx_os_iyx_osv16 120",
          "9a04d61c55e2f310 convolution_gpu_bfyx_gemm_like -1",
          "c21e8f7740b9a6d2 convolution_gpu_bfyx_3x3_dw_opt 34"]),
      (48, lines
        ["3f1c2a9be0d4a771 convolution_gpu_bfyx_os_iyx_osv16 151",
          "9a04d61c55e2f310 convolution_gpu_bfyx_os_iyx_osv16 24"]),
      (64, lines
        ["3f1c2a9be0d4a771 convolution_gpu_bfyx_os_iyx_osv16 202",
          "c21e8f7740b9a6d2 convolution_gpu_bfyx_3x3_dw_opt 27"]),
      (18, lines
        ["3f1c2a9be0d4a771 convolution_gpu_bfyx_os_iyx_osv16 64",
          "9a04d61c55e2f310 convolution_gpu_bfyx_gemm_like -1"])]

/-- Position of the table for exactly this number of units. -/
def position? (t : OfflineTables) (units : Nat) : Option Nat :=
  t.sources.findIdx? (·.1 = units)

/-- Position of the table that serves a device: its own, a similar one's, the fallback. -/
def slot? (t : OfflineTables) (units : Nat) : Option Nat :=
  (t.position? units).orElse fun _ =>
    (t.position? (tableUnits units)).orElse fun _ => t.position? fallbackUnits

/-- The records that serve a device. -/
def table? (t : OfflineTables) (units : Nat) : Option Records := do
  let slot ← t.slot? units
  let (_, text) ← t.sources[slot]?
  return Records.parse text

/-- The entry of a fingerprint for a device. -/
def lookup (t : OfflineTables) (units : Nat) (hash : String) : Option Entry := do
  let records ← t.table? units
  records.lookup hash

/-- The tables after that of a device has been consulted. -/
def consult (t : OfflineTables) (units : Nat) : OfflineTables :=
  match t.slot? units with
  | some slot => if t.opened.contains slot then t else { t with opened := slot :: t.opened }
  | none => t

/-- Whether the table of a device has been read. -/
def isOpened (t : OfflineTables) (units : Nat) : Bool :=
  (t.slot? units).any t.opened.contains

end OfflineTables

end NetPlan.Tuning
