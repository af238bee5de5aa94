import SchemaMarshal.Schema.Basic

/-! The schema of well-known kinds, gathered ahead of all others.

Its types can be referred to, but no marshaller is made for them.
-/

set_option autoImplicit false

namespace SchemaMarshal.WellKnown

def name : String := "marshgen/types.proto"

def package : String := "marshgen"

def text : String := "
syntax = \"proto2\";
package marshgen;

message StringValue \x7b
    optional string value = 1;
\x7d

message IntValue \x7b
    optional int32 value = 1;
\x7d

message LongValue \x7b
    optional int64 value = 1;
\x7d

message DoubleValue \x7b
    optional double value = 1;
\x7d

message FloatValue \x7b
    optional float value = 1;
\x7d

message BoolValue \x7b
    optional bool value = 1;
\x7d

message Serializable \x7b
    optional string clazz = 1;
    optional string value = 2;
\x7d
"

end SchemaMarshal.WellKnown
