import AddressPlan.Layout.Basic
import AddressPlan.Plan
import AddressPlan.Service.Body.Decode

/-!
# Request bodies

The fields of plans, layouts and nodes as clients send them.
-/

namespace AddressPlan.Service.Body

def int64 : Reading → Decoded Int :=
  integer (Digits.fitsSigned 64)

def int32 : Reading → Decoded Int :=
  integer (Digits.fitsSigned 32)

def byte (r : Reading) : Decoded Nat :=
  (integer (fun n ↦ 0 ≤ n && n < 256) r).map Int.toNat

def planFields : List (Field PlanRequest) :=
  [.of "prefix" true text fun x r ↦ { r with cidr := x },
    .of "mask_len" true byte fun x r ↦ { r with maskLength := x },
    .of "description" false optionalText fun x r ↦ { r with description := x }]

def nodeFields : List (Field Node) :=
  [.of "id" false int64 fun x n ↦ { n with id := x },
    .of "layout_id" false int64 fun x n ↦ { n with layoutId := x },
    .of "pid" false int64 fun x n ↦ { n with parentId := x },
    .of "name" true text fun x n ↦ { n with name := x },
    .of "prefix" false text fun x n ↦ { n with cidr := x },
    .of "sequence" false int32 fun x n ↦ { n with sequence := x },
    .of "bit_width" false int32 fun x n ↦ { n with bitWidth := x },
    .of "value" false int64 fun x n ↦ { n with value := x },
    .of "ipv4" false text fun x n ↦ { n with literals := x },
    .of "modified" false flag fun x n ↦ { n with modified := x }]

def node : Reading → Decoded Node :=
  Field.record nodeFields { name := "" }

def layoutFields : List (Field LayoutRequest) :=
  [.of "name" true text fun x r ↦ { r with name := x },
    .of "auto_fill" false flag fun x r ↦ { r with autoFill := x },
    .of "first_finished" false flag fun x r ↦ { r with firstFinished := x },
    .of "nodes" false (listOf node) fun x r ↦ { r with nodes := x }]

def planRequest : Reading → Decoded PlanRequest :=
  Field.record planFields { cidr := "", maskLength := 0 }

def layoutRequest : Reading → Decoded LayoutRequest :=
  Field.record layoutFields { name := "" }

end AddressPlan.Service.Body
